import Bewe.Sched.Active
import Mathlib

/-!
# Reserved times

What an entry reserves is the time from `SCHED_PRE_ARM_SEC` before its start up to its end, and two
entries that wait, are armed or record should not reserve the same. `sched_has_overlap` compares the
ends in whole seconds, so the fraction of a duration is not reserved: in whole seconds no two entries of a run
ever meet, and `exclusive_run_iff` says when they do not meet at all.
-/

namespace Bewe.Sched

open Lib
open Saved (MAX_SCHED_ENTRIES wholeSeconds toLongLong)
open EmitterDb (truncate)

namespace SchedEntry

/-- The entry waits, is armed or records. -/
def Live (e : SchedEntry) : Prop :=
  e.status = .waiting ∨ e.status = .armed ∨ e.status = .recording

/-- The instants that the entry reserves: `[start - pre-arm, start + duration)`. -/
def reserved (e : SchedEntry) : Set ℚ :=
  {t | (e.start_time - SCHED_PRE_ARM_SEC : ℤ) ≤ t ∧
    match e.duration_sec with
    | .fin q _ => t < e.start_time + q
    | .inf neg => neg = false
    | .nan _ => False}

/-- The seconds that the entry lasts, if that is a number. -/
def seconds (e : SchedEntry) : ℚ :=
  match e.duration_sec with
  | .fin q _ => q
  | _ => 0

end SchedEntry

/-- No two entries that wait, are armed or record reserve an instant both, and the list is no longer
than it may be. -/
structure Exclusive (es : List SchedEntry) : Prop where
  disjoint : es.Pairwise fun e f => e.Live → f.Live → Disjoint e.reserved f.reserved
  length_le : es.length ≤ MAX_SCHED_ENTRIES

/-! ## Whole seconds -/

theorem wholeSeconds_fin {q : ℚ} (h : roundBits 24 q = q) (h0 : 0 < q) :
    wholeSeconds (.fin q h) = if q < 2 ^ 63 then ⌊q⌋ else -2 ^ 63 := by
  have hdouble : roundBits 53 q = q := roundBits_of_le (by norm_num) h
  have htrunc : truncate q = ⌊q⌋ := if_neg h0.le.not_gt
  have hlow : (-2 : ℤ) ^ 63 ≤ ⌊q⌋ := by
    have := Int.floor_nonneg.2 h0.le
    omega
  have hhigh : ⌊q⌋ < (2 : ℤ) ^ 63 ↔ q < 2 ^ 63 := by
    rw [Int.floor_lt]
    norm_num
  simp only [wholeSeconds, Fp.ofRat, toLongLong, hdouble, htrunc]
  simp only [hhigh]
  split_ifs with h₁ h₂ h₂
  · rfl
  · exact absurd h₁.2 h₂
  · exact absurd ⟨by omega, h₂⟩ h₁
  · rfl

/-- What every entry of a run is: its duration is a positive number that a `time_t` holds, and its
status is one of the five. -/
structure Proper (e : SchedEntry) : Prop where
  seconds_pos : 0 < e.seconds
  seconds_lt : e.seconds < 2 ^ 63
  status : e.Live ∨ e.Finished

theorem Proper.duration_eq {e : SchedEntry} (he : Proper e) :
    ∃ h, e.duration_sec = .fin e.seconds h := by
  have hpos := he.seconds_pos
  unfold SchedEntry.seconds at hpos ⊢
  cases hd : e.duration_sec with
  | fin q h => exact ⟨h, rfl⟩
  | inf neg => simp [hd] at hpos
  | nan neg => simp [hd] at hpos

theorem Proper.endTime_eq {e : SchedEntry} (he : Proper e) :
    e.endTime = e.start_time + ⌊e.seconds⌋ := by
  obtain ⟨h, hd⟩ := he.duration_eq
  rw [SchedEntry.endTime, hd, wholeSeconds_fin h he.seconds_pos, if_pos he.seconds_lt]

theorem Proper.reserved_eq {e : SchedEntry} (he : Proper e) :
    e.reserved =
      Set.Ico ((e.start_time - SCHED_PRE_ARM_SEC : ℤ) : ℚ) (e.start_time + e.seconds) := by
  obtain ⟨h, hd⟩ := he.duration_eq
  ext t
  simp only [SchedEntry.reserved, hd, Set.mem_ofPred_eq, Set.mem_Ico]

/-- The pre-arm window of `f` begins at the whole second after which only a fraction of the duration
of `e` is left. -/
def EndsInside (e f : SchedEntry) : Prop :=
  f.start_time - SCHED_PRE_ARM_SEC = e.endTime ∧ Int.fract e.seconds ≠ 0

/-- The reservations are apart in whole seconds. -/
def WholeApart (e f : SchedEntry) : Prop :=
  e.endTime ≤ f.start_time - SCHED_PRE_ARM_SEC ∨ f.endTime ≤ e.start_time - SCHED_PRE_ARM_SEC

/-- Two intervals that are not empty are disjoint where one ends before the other begins. -/
theorem ico_disjoint_iff {a b c d : ℚ} (hab : a < b) (hcd : c < d) :
    Disjoint (Set.Ico a b) (Set.Ico c d) ↔ b ≤ c ∨ d ≤ a := by
  rw [Set.Ico_disjoint_Ico, min_le_iff, le_max_iff, le_max_iff]
  constructor
  · rintro ((h | h) | (h | h))
    · exact absurd hab h.not_gt
    · exact Or.inl h
    · exact Or.inr h
    · exact absurd hcd h.not_gt
  · rintro (h | h)
    · exact Or.inl (Or.inr h)
    · exact Or.inr (Or.inl h)

/-- Where an entry ends before the whole second at which another begins, but not before the other
begins, the other begins within the fraction. -/
theorem end_le_iff {e f : SchedEntry} (he : Proper e)
    (h : e.endTime ≤ f.start_time - SCHED_PRE_ARM_SEC) :
    (e.start_time + e.seconds : ℚ) ≤ (f.start_time - SCHED_PRE_ARM_SEC : ℤ) ↔ ¬EndsInside e f := by
  rw [he.endTime_eq] at h
  rw [EndsInside, he.endTime_eq, not_and_or, not_not]
  have hfract := Int.floor_add_fract e.seconds
  have hlt := Int.fract_lt_one e.seconds
  constructor
  · intro hle
    by_contra hnot
    obtain ⟨heq, hne⟩ := not_or.1 hnot
    have hpos : 0 < Int.fract e.seconds := lt_of_le_of_ne (Int.fract_nonneg _) (Ne.symm hne)
    have hcast := congrArg (Int.cast (R := ℚ)) (not_not.1 heq)
    push_cast at hcast hle
    linarith
  · rintro (hne | hzero)
    · have hlt' : e.start_time + ⌊e.seconds⌋ + 1 ≤ f.start_time - SCHED_PRE_ARM_SEC := by omega
      have hcast : ((e.start_time + ⌊e.seconds⌋ + 1 : ℤ) : ℚ) ≤
          (f.start_time - SCHED_PRE_ARM_SEC : ℤ) := by exact_mod_cast hlt'
      push_cast at hcast ⊢
      linarith
    · have hcast : ((e.start_time + ⌊e.seconds⌋ : ℤ) : ℚ) ≤
          (f.start_time - SCHED_PRE_ARM_SEC : ℤ) := by exact_mod_cast h
      push_cast at hcast ⊢
      linarith

/-- Entries that are apart in whole seconds reserve no instant both exactly if neither begins within
the fraction of the other. -/
theorem disjoint_iff_of_wholeApart {e f : SchedEntry} (he : Proper e) (hf : Proper f)
    (h : WholeApart e f) :
    Disjoint e.reserved f.reserved ↔ ¬EndsInside e f ∧ ¬EndsInside f e := by
  have hpre : ∀ g : SchedEntry, Proper g →
      ((g.start_time - SCHED_PRE_ARM_SEC : ℤ) : ℚ) < g.start_time + g.seconds := by
    intro g hg
    have := hg.seconds_pos
    simp only [SCHED_PRE_ARM_SEC]
    push_cast
    linarith
  have hfloor : ∀ g : SchedEntry, Proper g → g.start_time ≤ g.endTime := by
    intro g hg
    have := Int.floor_nonneg.2 hg.seconds_pos.le
    rw [hg.endTime_eq]
    omega
  -- only the entry that comes first can run into the other
  have hfirst : ∀ g k : SchedEntry, Proper g → Proper k →
      g.endTime ≤ k.start_time - SCHED_PRE_ARM_SEC →
        ((g.start_time + g.seconds : ℚ) ≤ (k.start_time - SCHED_PRE_ARM_SEC : ℤ) ∨
          (k.start_time + k.seconds : ℚ) ≤ (g.start_time - SCHED_PRE_ARM_SEC : ℤ) ↔
            ¬EndsInside g k ∧ ¬EndsInside k g) := by
    intro g k hg hk hle
    have hgs := hfloor g hg
    have hks := hfloor k hk
    have hsec : (SCHED_PRE_ARM_SEC : ℤ) = 5 := rfl
    have hnot : ¬EndsInside k g := fun hin => by
      have := hin.1
      omega
    have hno : ¬(k.start_time + k.seconds : ℚ) ≤ (g.start_time - SCHED_PRE_ARM_SEC : ℤ) := by
      have hkg : g.start_time - SCHED_PRE_ARM_SEC ≤ k.start_time := by omega
      have hcast : ((g.start_time - SCHED_PRE_ARM_SEC : ℤ) : ℚ) ≤ k.start_time := by
        exact_mod_cast hkg
      have := hk.seconds_pos
      intro hle'
      linarith
    rw [or_iff_left hno, end_le_iff hg hle, and_iff_left hnot]
  rw [he.reserved_eq, hf.reserved_eq, ico_disjoint_iff (hpre e he) (hpre f hf)]
  rcases h with h | h
  · exact hfirst e f he hf h
  · rw [or_comm, and_comm]
    exact hfirst f e hf he h

/-! ## What an operation does to a list -/

/-- An entry goes on to another status: what it reserves stays, and one that is finished does not
come back. -/
structure Progress (e e' : SchedEntry) : Prop where
  start_time : e'.start_time = e.start_time
  duration_sec : e'.duration_sec = e.duration_sec
  live : e'.Live → e.Live
  status : e.Live ∨ e.Finished → e'.Live ∨ e'.Finished

theorem Progress.refl (e : SchedEntry) : Progress e e := ⟨rfl, rfl, id, id⟩

/-- An entry that is live goes on to any of the five statuses, and every entry to a finished one. -/
theorem progress_of_status {e e' : SchedEntry} (hs : e'.start_time = e.start_time)
    (hd : e'.duration_sec = e.duration_sec) (h : e.Live ∧ e'.Live ∨ e'.Finished) :
    Progress e e' := by
  refine ⟨hs, hd, fun hl => ?_, fun _ => h.imp And.right id⟩
  rcases h with h | h
  · exact h.1
  · rcases h with h | h <;> simp [SchedEntry.Live, h] at hl

theorem Proper.progress {e e' : SchedEntry} (he : Proper e) (h : Progress e e') : Proper e' := by
  have hsec : e'.seconds = e.seconds := by simp only [SchedEntry.seconds, h.duration_sec]
  exact ⟨hsec ▸ he.seconds_pos, hsec ▸ he.seconds_lt, h.status he.status⟩

/-- No two live entries of a list stand in a relation of their reservations. -/
def Separated (D : SchedEntry → SchedEntry → Prop) (es : List SchedEntry) : Prop :=
  es.Pairwise fun e f => e.Live → f.Live → D e f

theorem Separated.progress {D : SchedEntry → SchedEntry → Prop}
    (hD : ∀ e e' f f', Progress e e' → Progress f f' → D e f → D e' f') {es es' : List SchedEntry}
    (h : List.Forall₂ Progress es es') (hes : Separated D es) : Separated D es' := by
  induction h with
  | nil => exact List.Pairwise.nil
  | @cons e e' es es' he hrest ih =>
    obtain ⟨hfirst, htail⟩ := List.pairwise_cons.1 hes
    refine List.pairwise_cons.2 ⟨fun f' hf' hl hl' => ?_, ih htail⟩
    obtain ⟨i, hi, rfl⟩ := List.mem_iff_getElem.1 hf'
    have hi' : i < es.length := hrest.length_eq ▸ hi
    have hf : Progress es[i] es'[i] := hrest.get hi' hi
    exact hD e e' _ _ he hf (hfirst _ (List.getElem_mem hi') (he.live hl) (hf.live hl'))

theorem serveActive_progress (env : TickEnv) (s : State) :
    List.Forall₂ Progress s.sched_entries (serveActive env s).sched_entries := by
  have hrefl : List.Forall₂ Progress s.sched_entries s.sched_entries :=
    List.forall₂_same.2 fun e _ => Progress.refl e
  have hset : ∀ i e e', s.sched_entries[i]? = some e → Progress e e' →
      List.Forall₂ Progress s.sched_entries (s.sched_entries.set i e') := by
    intro i e e' hi hp
    rw [List.forall₂_iff_get]
    refine ⟨by simp, fun k hk hk' => ?_⟩
    obtain ⟨hlt, rfl⟩ := List.getElem?_eq_some_iff.1 hi
    simp only [List.get_eq_getElem, List.getElem_set]
    split_ifs with hik
    · subst hik
      exact hp
    · exact Progress.refl _
  unfold serveActive
  cases hi : s.sched_active_idx with
  | none => exact hrefl
  | some i =>
    cases he : s.sched_entries[i]? with
    | none => simpa [he] using hrefl
    | some e =>
      simp only [he]
      unfold serveEntry
      cases hstatus : e.status with
      | armed =>
        obtain ⟨hs, hd, r, hcases⟩ := schedBeginRec_cases env e
        have hp : Progress e (schedBeginRec env e).1 := by
          refine progress_of_status hs hd ?_
          rcases hcases with ⟨h, -⟩ | ⟨h, -⟩
          · exact Or.inl ⟨Or.inr (Or.inl hstatus), Or.inr (Or.inr h)⟩
          · exact Or.inr (Or.inr h)
        simp only
        split_ifs
        · rcases hb : schedBeginRec env e with ⟨e', o⟩
          rw [hb] at hp
          cases o <;> exact hset i e e' he hp
        · exact hrefl
      | recording =>
        simp only
        split_ifs
        · exact hset i e _ he (progress_of_status rfl rfl (Or.inr (Or.inl rfl)))
        · exact hrefl
      | waiting => exact hrefl
      | done => exact hrefl
      | failed => exact hrefl
      | other b => exact hrefl

theorem armNext_progress (env : TickEnv) (es : List SchedEntry) (i : ℕ) :
    List.Forall₂ Progress es (armNext env i es).1 := by
  induction es generalizing i with
  | nil => exact List.Forall₂.nil
  | cons e es ih =>
    have hrefl : List.Forall₂ Progress es es := List.forall₂_same.2 fun e _ => Progress.refl e
    obtain ⟨e', hs, hd, ⟨hkeep, heq⟩ | ⟨hwait, ⟨harmed, heq⟩ | ⟨hfailed, heq⟩⟩⟩ :=
      armNext_cons env i e es
    · rw [heq]
      refine List.Forall₂.cons ?_ (ih (i + 1))
      rcases hkeep with rfl | ⟨-, hfailed⟩
      · exact Progress.refl _
      · exact progress_of_status hs hd (Or.inr (Or.inr hfailed))
    · rw [heq]
      exact List.Forall₂.cons
        (progress_of_status hs hd (Or.inl ⟨Or.inl hwait, Or.inr (Or.inl harmed)⟩)) hrefl
    · rw [heq]
      exact List.Forall₂.cons (progress_of_status hs hd (Or.inr (Or.inr hfailed))) hrefl

theorem exists_schedTick_progress (env : TickEnv) (s : State) :
    ∃ es, List.Forall₂ Progress s.sched_entries es ∧
      List.Forall₂ Progress es (schedTick env s).sched_entries := by
  refine ⟨(serveActive env s).sched_entries, serveActive_progress env s, ?_⟩
  unfold schedTick
  cases hi : (serveActive env s).sched_active_idx with
  | some i => simpa [hi] using List.forall₂_same.2 fun e _ => Progress.refl e
  | none => simpa [hi] using armNext_progress env (serveActive env s).sched_entries 0

theorem satClean_sublist (now : ℕ) (rules : List Rule) (s : State) :
    List.Sublist (satClean now rules s).sched_entries s.sched_entries := by
  have hfrom : ∀ (es : List SchedEntry) (k : ℕ),
      (((es.zipIdx k).filterMap (cleanEntry now rules s.sched_active_idx)).map Prod.fst).Sublist
        es := by
    intro es
    induction es with
    | nil => simp
    | cons e es ih =>
      intro k
      rw [List.zipIdx_cons]
      cases hc : cleanEntry now rules s.sched_active_idx (e, k) with
      | none =>
        rw [List.filterMap_cons_none hc]
        exact (ih (k + 1)).cons e
      | some y =>
        rw [List.filterMap_cons_some hc, List.map_cons, (cleanEntry_eq_some hc).1]
        exact (ih (k + 1)).cons_cons e
  simpa only [satClean, rebuild_fst] using hfrom s.sched_entries 0

theorem onRemoveSched_sublist (start_time : Int64) (freq_mhz : Fp 24) (s : State) :
    List.Sublist (onRemoveSched start_time freq_mhz s).sched_entries s.sched_entries := by
  unfold onRemoveSched
  split
  · exact List.Sublist.refl _
  · split
    · exact List.Sublist.refl _
    · split
      · exact List.Sublist.refl _
      · exact List.eraseIdx_sublist _ _

/-! ## Producers -/

/-- An entry that passes the tests of all producers finds room, apart from every live one in whole
seconds. -/
theorem of_roomRefusal {es : List SchedEntry} {e : SchedEntry}
    (h : roomRefusal es e.start_time e.duration_sec = none) :
    (∀ f ∈ es, f.Live → WholeApart f e) ∧ es.length < MAX_SCHED_ENTRIES := by
  unfold roomRefusal at h
  split_ifs at h with hover hfull
  refine ⟨fun f hf hl => ?_, not_le.1 hfull⟩
  have hfin : ¬f.Finished := by
    rintro (h' | h') <;> simp [SchedEntry.Live, h'] at hl
  have hnone : ¬(e.start_time - SCHED_PRE_ARM_SEC < f.endTime ∧
      f.start_time - SCHED_PRE_ARM_SEC < e.start_time + wholeSeconds e.duration_sec) := by
    intro hboth
    exact hover (List.any_eq_true.2 ⟨f, hf, decide_eq_true ⟨hfin, hboth⟩⟩)
  rcases not_and_or.1 hnone with h' | h'
  · exact Or.inl (not_lt.1 h')
  · exact Or.inr (not_lt.1 h')

theorem of_addRefusal {now : ℕ} {q : AddRequest} {es : List SchedEntry}
    (h : addRefusal now q es = none) :
    Proper q.entry ∧ roomRefusal es q.entry.start_time q.entry.duration_sec = none := by
  simp only [addRefusal] at h
  split_ifs at h with hparams hpast
  refine ⟨?_, h⟩
  obtain ⟨hdur, -⟩ := not_or.1 hparams
  have hpast' : (0 : ℤ) ≤ q.start_time.toInt + wholeSeconds q.duration_sec :=
    (Int.natCast_nonneg now).trans (not_lt.1 hpast)
  have hstart : q.start_time.toInt < 2 ^ 63 := q.start_time.toInt_lt
  have hlive : q.entry.Live ∨ q.entry.Finished := Or.inl (Or.inl rfl)
  have hsec : q.entry.seconds = (match q.duration_sec with | .fin r _ => r | _ => 0) := rfl
  cases hd : q.duration_sec with
  | fin r hr =>
    have hzero : (Fp.ofRat (p := 24) (by norm_num) 0) = .fin 0 (by simp [roundBits]) := by
      simp [Fp.ofRat, roundBits]
    have hpos : 0 < r := by
      rw [hd, hzero] at hdur
      simpa [Fp.le] using hdur
    rw [hd, wholeSeconds_fin hr hpos] at hpast'
    rw [hd] at hsec
    refine ⟨hsec ▸ hpos, ?_, hlive⟩
    by_contra hge
    rw [hsec] at hge
    rw [if_neg hge] at hpast'
    omega
  | inf neg =>
    rw [hd] at hpast'
    simp only [wholeSeconds] at hpast'
    omega
  | nan neg =>
    rw [hd] at hpast'
    simp only [wholeSeconds] at hpast'
    omega

/-- What passes the tests of `SatSched::tick` is a proper entry of whole seconds that finds room. -/
theorem of_passRefusal {now : ℕ} {r : Rule} {p : Pass now} {es : List SchedEntry}
    (h : passRefusal r p es = none) :
    Proper (p.entry r) ∧
      roomRefusal es (p.entry r).start_time (p.entry r).duration_sec = none := by
  unfold passRefusal at h
  split_ifs at h with hshort hdup
  refine ⟨?_, h⟩
  have hlong : 10 ≤ p.los - p.start := not_lt.1 hshort
  have hstart : (now : ℤ) ≤ p.start := by
    have : (now : ℤ) + SCHED_PRE_ARM_SEC + 2 ≤ p.start := le_max_right _ _
    simp only [SCHED_PRE_ARM_SEC] at this
    omega
  have hlos := p.los_le
  have hday : p.los - p.start ≤ 86400 := by
    simp only [HORIZON] at hlos
    omega
  have hexact : roundBits 24 ((p.los - p.start : ℤ) : ℚ) = (p.los - p.start : ℤ) :=
    roundBits_intCast (by norm_num) (by rw [abs_of_nonneg (by omega)]; omega)
  have hsec : (p.entry r).seconds = (p.los - p.start : ℤ) := hexact
  refine ⟨?_, ?_, Or.inl (Or.inl rfl)⟩
  · rw [hsec]
    exact_mod_cast (by omega : 0 < p.los - p.start)
  · rw [hsec]
    exact_mod_cast (by omega : p.los - p.start < 2 ^ 63)

/-- What separates an entry from the live ones of a list separates the list with it. -/
theorem Separated.push {D : SchedEntry → SchedEntry → Prop} {es : List SchedEntry} {e : SchedEntry}
    (he : e.Live) :
    Separated D (es ++ [e]) ↔ Separated D es ∧ ∀ f ∈ es, f.Live → D f e := by
  simp only [Separated, List.pairwise_append, List.pairwise_singleton, true_and,
    List.mem_singleton, forall_eq]
  exact and_congr_right fun _ => forall₂_congr fun f hf => ⟨fun h hl => h hl he, fun h hl _ => h hl⟩

/-! ## Runs -/

/-- What holds of the list in every run of the operations of a HOST: the entries are proper, apart
in whole seconds, and no more than there may be. -/
structure ListSound (es : List SchedEntry) : Prop where
  proper : ∀ e ∈ es, Proper e
  apart : Separated WholeApart es
  length_le : es.length ≤ MAX_SCHED_ENTRIES

theorem ListSound.sublist {es es' : List SchedEntry} (h : ListSound es) (hs : es'.Sublist es) :
    ListSound es' :=
  ⟨fun e he => h.proper e (hs.subset he), List.Pairwise.sublist hs h.apart,
    hs.length_le.trans h.length_le⟩

theorem ListSound.progress {es es' : List SchedEntry} (h : ListSound es)
    (hp : List.Forall₂ Progress es es') : ListSound es' := by
  refine ⟨fun e' he' => ?_, h.apart.progress ?_ hp, hp.length_eq ▸ h.length_le⟩
  · obtain ⟨i, hi, rfl⟩ := List.mem_iff_getElem.1 he'
    have hi' : i < es.length := hp.length_eq ▸ hi
    exact (h.proper _ (List.getElem_mem hi')).progress (hp.get hi' hi)
  · intro e e' f f' he hf hD
    simpa only [WholeApart, SchedEntry.endTime, he.start_time, he.duration_sec, hf.start_time,
      hf.duration_sec] using hD

theorem ListSound.push {es : List SchedEntry} (h : ListSound es) {e : SchedEntry} (he : Proper e)
    (hl : e.Live) (hroom : roomRefusal es e.start_time e.duration_sec = none) :
    ListSound (es ++ [e]) := by
  obtain ⟨hapart, hlen⟩ := of_roomRefusal hroom
  refine ⟨fun f hf => ?_, (Separated.push hl).2 ⟨h.apart, hapart⟩, ?_⟩
  · rcases List.mem_append.1 hf with hf | hf
    · exact h.proper f hf
    · exact List.mem_singleton.1 hf ▸ he
  · rw [List.length_append, List.length_singleton]
    omega

theorem ListSound.next {s : State} (h : ListSound s.sched_entries) (o : Op) :
    ListSound (o.next s).sched_entries := by
  cases o with
  | add now q =>
    simp only [Op.next, onAddSched]
    cases hr : addRefusal now q s.sched_entries with
    | some _ => exact h
    | none =>
      obtain ⟨hq, hroom⟩ := of_addRefusal hr
      exact h.push hq (Or.inl rfl) hroom
  | remove start_time freq_mhz => exact h.sublist (onRemoveSched_sublist _ _ s)
  | clean now rules => exact h.sublist (satClean_sublist now rules s)
  | fill r p =>
    simp only [Op.next, satFill]
    cases hr : passRefusal r p s.sched_entries with
    | some _ => exact h
    | none =>
      obtain ⟨hp, hroom⟩ := of_passRefusal hr
      exact h.push hp (Or.inl rfl) hroom
  | tick env =>
    obtain ⟨es, hserve, hnext⟩ := exists_schedTick_progress env s
    exact (h.progress hserve).progress hnext

/-- The state that a sequence of operations leads to. -/
def afterOps (os : List Op) : State := os.foldl Op.next {}

/-- In every run no two live entries meet in whole seconds, and the list is no longer than it may
be. -/
theorem listSound_run (os : List Op) : ListSound (afterOps os).sched_entries := by
  induction os using List.reverseRecOn with
  | nil => exact ⟨by simp [afterOps], List.Pairwise.nil, by simp [afterOps]⟩
  | append_singleton os o ih =>
    rw [afterOps, List.foldl_append]
    exact ih.next o

/-- No live entry begins within the fraction of the new one, nor the new one within that of a live
entry. -/
def Fits (es : List SchedEntry) (e : SchedEntry) : Prop :=
  ∀ f ∈ es, f.Live → ¬EndsInside f e ∧ ¬EndsInside e f

/-- The operations that keep the reservations disjoint: an entry that is added does not meet the
fraction of a duration. -/
def OpKeeps (s : State) : Op → Prop
  | .add now q => addRefusal now q s.sched_entries = none → Fits s.sched_entries q.entry
  | .fill r p => passRefusal r p s.sched_entries = none → Fits s.sched_entries (p.entry r)
  | _ => True

/-- The reservations of the live entries are disjoint. -/
abbrev Disjoined (es : List SchedEntry) : Prop :=
  Separated (fun e f => Disjoint e.reserved f.reserved) es

theorem Disjoined.progress {es es' : List SchedEntry} (hp : List.Forall₂ Progress es es')
    (h : Disjoined es) : Disjoined es' := by
  refine Separated.progress (fun e e' f f' he hf hD => ?_) hp h
  simpa only [SchedEntry.reserved, he.start_time, he.duration_sec, hf.start_time,
    hf.duration_sec] using hD

/-- A new entry that finds room leaves the reservations disjoint exactly if it fits. -/
theorem Disjoined.push_iff {es : List SchedEntry} (hs : ListSound es) (h : Disjoined es)
    {e : SchedEntry} (he : Proper e) (hl : e.Live)
    (hroom : roomRefusal es e.start_time e.duration_sec = none) :
    Disjoined (es ++ [e]) ↔ Fits es e := by
  rw [Disjoined, Separated.push hl, and_iff_right h]
  refine forall₂_congr fun f hf => imp_congr_right fun hfl => ?_
  exact disjoint_iff_of_wholeApart (hs.proper f hf) he ((of_roomRefusal hroom).1 f hf hfl)

/-- One operation leaves the reservations disjoint exactly if it is one that does. -/
theorem Disjoined.next_iff {s : State} (hs : ListSound s.sched_entries)
    (h : Disjoined s.sched_entries) (o : Op) :
    Disjoined (o.next s).sched_entries ↔ OpKeeps s o := by
  cases o with
  | add now q =>
    simp only [Op.next, onAddSched, OpKeeps]
    cases hr : addRefusal now q s.sched_entries with
    | some _ => simpa using h
    | none =>
      obtain ⟨hq, hroom⟩ := of_addRefusal hr
      simpa using h.push_iff hs hq (Or.inl rfl) hroom
  | remove start_time freq_mhz =>
    exact iff_of_true (List.Pairwise.sublist (onRemoveSched_sublist _ _ s) h) trivial
  | clean now rules =>
    exact iff_of_true (List.Pairwise.sublist (satClean_sublist now rules s) h) trivial
  | fill r p =>
    simp only [Op.next, satFill, OpKeeps]
    cases hr : passRefusal r p s.sched_entries with
    | some _ => simpa using h
    | none =>
      obtain ⟨hp, hroom⟩ := of_passRefusal hr
      simpa using h.push_iff hs hp (Or.inl rfl) hroom
  | tick env =>
    obtain ⟨es, hserve, hnext⟩ := exists_schedTick_progress env s
    exact iff_of_true ((h.progress hserve).progress hnext) trivial

/-- In every state of a run from an empty list no two entries that wait, are armed or record reserve
an instant both and the list keeps within its bound, exactly if no entry is added that begins within
the fraction of a live one's duration, or within the fraction of whose duration a live one begins.
-/
theorem exclusive_run_iff (os : List Op) :
    (∀ os', os' <+: os → Exclusive (afterOps os').sched_entries) ↔
      ∀ os' o, os' ++ [o] <+: os → OpKeeps (afterOps os') o := by
  have hrun : (∀ os', os' <+: os → Disjoined (afterOps os').sched_entries) ↔
      ∀ os' o, os' ++ [o] <+: os → OpKeeps (afterOps os') o :=
    forall_prefix_foldl_iff (P := fun s : State => ListSound s.sched_entries)
      (Q := fun s : State => Disjoined s.sched_entries) (fun _ o h _ _ => h.next o)
      (fun _ o hs h => h.next_iff hs o) (listSound_run []) List.Pairwise.nil os
  refine Iff.trans ?_ hrun
  refine forall₂_congr fun os' _ => ⟨Exclusive.disjoint, fun h => ⟨h, ?_⟩⟩
  exact (listSound_run os').length_le

/-! ## Two recordings at once -/

/-- Ten seconds and a half from 1000 on, and a minute from 1015 on. -/
def fractionRun : List Op :=
  [.add 900 (secondsRequest 1000 (21 / 2) 100), .add 900 (secondsRequest 1015 60 200)]

theorem fractionRun_entries :
    (afterOps fractionRun).sched_entries =
      [(secondsRequest 1000 (21 / 2) 100).entry, (secondsRequest 1015 60 200).entry] := by
  decide +kernel

theorem mem_reserved_secondsRequest {start_time : Int64} {seconds freq_mhz t : ℚ}
    (hs : roundBits 24 seconds = seconds) :
    t ∈ (secondsRequest start_time seconds freq_mhz).entry.reserved ↔
      (start_time.toInt - SCHED_PRE_ARM_SEC : ℤ) ≤ t ∧ t < start_time.toInt + seconds := by
  simp only [SchedEntry.reserved, AddRequest.entry, secondsRequest, Fp.ofRat, hs,
    Set.mem_ofPred_eq]

/-- The first one lasts until 1010.5, and the second one is armed from 1010 on. -/
theorem not_exclusive_fractionRun : ¬Exclusive (afterOps fractionRun).sched_entries := by
  intro h
  have hdisj := h.disjoint
  rw [fractionRun_entries, List.pairwise_pair] at hdisj
  have hboth := hdisj (Or.inl rfl) (Or.inl rfl)
  have hfirst : (1010 : ℚ) ∈ (secondsRequest 1000 (21 / 2) 100).entry.reserved :=
    (mem_reserved_secondsRequest (by decide +kernel)).2 (by decide +kernel)
  have hsecond : (1010 : ℚ) ∈ (secondsRequest 1015 60 200).entry.reserved :=
    (mem_reserved_secondsRequest (by decide +kernel)).2 (by decide +kernel)
  exact Set.disjoint_left.1 hboth hfirst hsecond

end Bewe.Sched
