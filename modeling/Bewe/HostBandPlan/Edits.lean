import Mathlib.Data.List.Forall2
import Bewe.HostBandPlan.Read

/-!
# The band plan over edits and restarts

What holds of the plan after any edits (`plan_of_edits`): it has no more segments than there is room
for, each has some width, no two have the same edges, and after a restart every segment is there
again. That two edges are the same is no transitive relation, so an entry can take the place of one
segment and lie on another. And the file holds no more than 23 bytes of a label and 127 of a
description, no control characters but the ends of lines, and four decimals of an edge, which must be
a number.
-/

namespace Bewe.HostBandPlan

open Lib
open Binary32 (Near decimals)
open Saved (Chars isLost rescanned)

/-! ## One segment -/

/-- A segment with what is back of it after a restart. -/
structure Kept (e e' : PktBandEntry) : Prop where
  category : e.category = e'.category
  freq_lo_mhz : Near (1 / 10 ^ 4) e.freq_lo_mhz e'.freq_lo_mhz
  freq_hi_mhz : Near (1 / 10 ^ 4) e.freq_hi_mhz e'.freq_hi_mhz
  label : e.label.str = e'.label.str
  description : e.description.str = e'.description.str

/-- A text that leaves the last byte of its array free and has no control characters but the ends of
lines. -/
structure IsText {n : ℕ} (a : Chars (n + 1)) : Prop where
  length : a.str.length ≤ n
  kept : ∀ c ∈ a.str, isLost c = false

/-- A segment that the file holds: its texts, and edges that still differ once they are printed. -/
structure PktBandEntry.Storable (e : PktBandEntry) : Prop where
  edges : ∃ lo ∈ e.freq_lo_mhz.value, ∃ hi ∈ e.freq_hi_mhz.value, decimals 4 lo < decimals 4 hi
  label : IsText e.label
  description : IsText e.description

namespace PktBandEntry

variable {e e' : PktBandEntry}

theorem Storable.numbers (h : e.Storable) : e.Numbers := by
  obtain ⟨lo, hlo, hi, hhi, -⟩ := h.edges
  exact ⟨Option.isSome_iff_exists.2 ⟨lo, hlo⟩, Option.isSome_iff_exists.2 ⟨hi, hhi⟩⟩

theorem numbers_of_kept (h : Kept e e') : e.Numbers := ⟨h.freq_lo_mhz.isSome, h.freq_hi_mhz.isSome⟩

theorem isText_iff {n : ℕ} (a : Chars (n + 1)) :
    a.str = (copyText n (a.str.flatMap rescanned)).str ↔ IsText a :=
  a.str_copied_eq_iff.trans ⟨fun h => ⟨h.1, h.2⟩, fun h => ⟨h.length, h.kept⟩⟩

theorem kept_reread_iff (he : e.Numbers) :
    Kept e e.reread ↔ IsText e.label ∧ IsText e.description := by
  constructor
  · intro h
    exact ⟨(isText_iff e.label).1 h.label, (isText_iff e.description).1 h.description⟩
  · rintro ⟨hlabel, hdescription⟩
    exact
      { category := rfl
        freq_lo_mhz := Binary32.near_reread_four he.freq_lo_mhz
        freq_hi_mhz := Binary32.near_reread_four he.freq_hi_mhz
        label := (isText_iff e.label).2 hlabel
        description := (isText_iff e.description).2 hdescription }

/-- What is read back has some width exactly if the edges differ once they are printed. -/
theorem isWide_reread_iff (he : e.Numbers) :
    e.reread.isWide = true ↔
      ∃ lo ∈ e.freq_lo_mhz.value, ∃ hi ∈ e.freq_hi_mhz.value, decimals 4 lo < decimals 4 hi := by
  obtain ⟨lo, hlo⟩ := Option.isSome_iff_exists.1 he.freq_lo_mhz
  obtain ⟨hi, hhi⟩ := Option.isSome_iff_exists.1 he.freq_hi_mhz
  have hread := Binary32.lt_toFp_iff
    (Binary32.value_reread (n := 4) (by norm_num) (by norm_num) hlo)
    (Binary32.value_reread (n := 4) (by norm_num) (by norm_num) hhi)
  simp only [hlo, hhi, Option.mem_some_iff, exists_eq_left']
  exact hread

theorem storable_iff (he : e.Numbers) :
    e.Storable ↔ e.reread.isWide = true ∧ Kept e e.reread := by
  rw [isWide_reread_iff he, kept_reread_iff he]
  exact ⟨fun h => ⟨h.edges, h.label, h.description⟩, fun h => ⟨h.1, h.2.1, h.2.2⟩⟩

end PktBandEntry

/-! ## The plan -/

/-- What `g_segments` is at any time: no more than there is room for, and all valid. -/
structure Plan where
  segments : List PktBandEntry
  size : segments.length ≤ MAX_BAND_SEGMENTS
  valid : ∀ e ∈ segments, e.valid = 1

/-- The plan without segments. -/
def Plan.empty : Plan := ⟨[], Nat.zero_le _, by simp⟩

/-- What is loaded where the plan was saved. -/
def Plan.restart (p : Plan) : List PktBandEntry := loadFromFile (some (saveToFile p.segments))

/-- What the plan should be: at most `MAX_BAND_SEGMENTS` segments, each of some width, no two with the
same edges, and all of them kept by a restart. -/
structure Plan.Sound (p : Plan) : Prop where
  length : p.segments.length ≤ MAX_BAND_SEGMENTS
  wide : ∀ e ∈ p.segments, e.isWide = true
  apart : p.segments.Pairwise fun a b => entriesEqual a b = false
  restarts : List.Forall₂ Kept p.segments p.restart

theorem Plan.restarts_iff (p : Plan) :
    List.Forall₂ Kept p.segments p.restart ↔ ∀ e ∈ p.segments, e.Storable := by
  constructor
  · intro h
    -- what is kept has numbers for edges, so all of it was read
    have hnum : ∀ e ∈ p.segments, e.Numbers := by
      intro e he
      obtain ⟨i, hi, rfl⟩ := List.getElem_of_mem he
      exact PktBandEntry.numbers_of_kept (h.get hi (h.length_eq ▸ hi))
    rw [restart, loadFromFile_saveToFile p.size p.valid hnum] at h
    have hlen := h.length_eq
    rw [← List.length_map (f := PktBandEntry.reread), eq_comm, List.length_filter_eq_length_iff]
      at hlen
    rw [List.filter_eq_self.2 hlen, List.forall₂_map_right_iff, List.forall₂_same] at h
    intro e he
    exact (PktBandEntry.storable_iff (hnum e he)).2
      ⟨hlen e.reread (List.mem_map_of_mem he), h e he⟩
  · intro h
    have hnum : ∀ e ∈ p.segments, e.Numbers := fun e he => (h e he).numbers
    have hboth : ∀ e ∈ p.segments, e.reread.isWide = true ∧ Kept e e.reread := fun e he =>
      (PktBandEntry.storable_iff (hnum e he)).1 (h e he)
    have hwide : ∀ r ∈ p.segments.map PktBandEntry.reread, r.isWide = true := by
      intro r hr
      obtain ⟨e, he, rfl⟩ := List.mem_map.1 hr
      exact (hboth e he).1
    rw [restart, loadFromFile_saveToFile p.size p.valid hnum, List.filter_eq_self.2 hwide,
      List.forall₂_map_right_iff, List.forall₂_same]
    exact fun e he => (hboth e he).2

theorem Plan.sound_empty : Plan.empty.Sound where
  length := Nat.zero_le _
  wide := by simp [empty]
  apart := List.Pairwise.nil
  restarts := (restarts_iff _).2 (by simp [empty])

/-! ## Edits -/

/-- What an operator does. -/
inductive Edit
  | add (entry : PktBandEntry)
  | update (entry : PktBandEntry)
  | remove (rm : PktBandRemove)

/-- The operation of an edit. -/
def Edit.apply : Edit → List PktBandEntry → Bool × List PktBandEntry
  | add entry => applyAdd entry
  | update entry => applyUpdate entry
  | remove rm => applyRemove rm

/-- An entry that is not taken: its edges are in the wrong order, or it is new and there is no room. -/
def Refused (entry : PktBandEntry) (segments : List PktBandEntry) : Prop :=
  entry.freq_hi_mhz.toFp.le entry.freq_lo_mhz.toFp = true ∨
    (∀ e ∈ segments, entriesEqual e entry = false) ∧ MAX_BAND_SEGMENTS ≤ segments.length

theorem put_cases (entry : PktBandEntry) (segments : List PktBandEntry) :
    (Refused entry segments ∧ put entry segments = (false, segments)) ∨
      ¬Refused entry segments ∧ ∃ segments', put entry segments = (true, segments') ∧
        upsert MAX_BAND_SEGMENTS (fun e => entriesEqual e entry) { entry with valid := 1 }
          segments = some segments' := by
  unfold put
  by_cases hle : entry.freq_hi_mhz.toFp.le entry.freq_lo_mhz.toFp = true
  · exact Or.inl ⟨Or.inl hle, if_pos hle⟩
  rw [if_neg hle]
  cases h : upsert MAX_BAND_SEGMENTS (fun e => entriesEqual e entry) { entry with valid := 1 }
      segments with
  | none => exact Or.inl ⟨Or.inr (upsert_eq_none_iff.1 h), rfl⟩
  | some segments' =>
    refine Or.inr ⟨?_, segments', rfl, rfl⟩
    rintro (h' | h')
    · exact hle h'
    · rw [upsert_eq_none_iff.2 h'] at h
      cases h

theorem applyRemove_sublist (rm : PktBandRemove) (segments : List PktBandEntry) :
    (applyRemove rm segments).2.Sublist segments := by
  unfold applyRemove
  split_ifs
  · exact List.filter_sublist
  · exact List.Sublist.refl _

theorem put_size {entry : PktBandEntry} {segments : List PktBandEntry}
    (h : segments.length ≤ MAX_BAND_SEGMENTS) :
    (put entry segments).2.length ≤ MAX_BAND_SEGMENTS := by
  rcases put_cases entry segments with ⟨-, heq⟩ | ⟨-, segments', heq, hup⟩
  · rwa [heq]
  · rw [heq]
    exact length_upsert_le hup h

theorem put_valid {entry : PktBandEntry} {segments : List PktBandEntry}
    (h : ∀ e ∈ segments, e.valid = 1) : ∀ e ∈ (put entry segments).2, e.valid = 1 := by
  rcases put_cases entry segments with ⟨-, heq⟩ | ⟨-, segments', heq, hup⟩
  · rwa [heq]
  · rw [heq]
    intro e he
    rcases mem_of_mem_upsert hup he with rfl | he
    · rfl
    · exact h e he

/-- The plan after an edit. -/
def Plan.step (p : Plan) (edit : Edit) : Plan where
  segments := (edit.apply p.segments).2
  size := by
    cases edit with
    | add entry => exact put_size p.size
    | update entry => exact put_size p.size
    | remove rm => exact (applyRemove_sublist rm p.segments).length_le.trans p.size
  valid := by
    cases edit with
    | add entry => exact put_valid p.valid
    | update entry => exact put_valid p.valid
    | remove rm => exact fun e he => p.valid e ((applyRemove_sublist rm p.segments).subset he)

/-- An entry that leaves the plan as it should be: it is refused, or the file holds it and at most one
segment has the same edges. -/
def Fits (entry : PktBandEntry) (segments : List PktBandEntry) : Prop :=
  Refused entry segments ∨
    entry.Storable ∧ (segments.filter fun e => entriesEqual e entry).length ≤ 1

/-- An edit that leaves the plan as it should be. -/
def Edit.Fits (segments : List PktBandEntry) : Edit → Prop
  | add entry => HostBandPlan.Fits entry segments
  | update entry => HostBandPlan.Fits entry segments
  | remove _ => True

theorem entriesEqual_comm (a b : PktBandEntry) : entriesEqual a b = entriesEqual b a := by
  rw [entriesEqual, entriesEqual, Binary32.dist_comm, Binary32.dist_comm a.freq_hi_mhz]

theorem entriesEqual_valid (a b : PktBandEntry) (v : UInt8) :
    entriesEqual a { b with valid := v } = entriesEqual a b := rfl

theorem lt_toFp_of_storable {entry : PktBandEntry} {segments : List PktBandEntry}
    (h : entry.Storable) (htaken : ¬Refused entry segments) :
    entry.freq_lo_mhz.toFp.lt entry.freq_hi_mhz.toFp = true := by
  obtain ⟨lo, hlo, hi, hhi, -⟩ := h.edges
  have hnot : ¬hi ≤ lo := fun hle => htaken (Or.inl ((Binary32.le_toFp_iff hhi hlo).2 hle))
  exact (Binary32.lt_toFp_iff hlo hhi).2 (not_le.1 hnot)

theorem sound_put_iff {p q : Plan} (hp : p.Sound) {entry : PktBandEntry}
    (hq : q.segments = (put entry p.segments).2) : q.Sound ↔ Fits entry p.segments := by
  rcases put_cases entry p.segments with ⟨hrefused, heq⟩ | ⟨htaken, segments', heq, hup⟩
  · rw [heq] at hq
    have hqp : q = p := by
      cases p
      cases q
      cases hq
      rfl
    rw [hqp]
    exact iff_of_true hp (Or.inl hrefused)
  rw [heq] at hq
  dsimp only at hq
  have hup' : upsert MAX_BAND_SEGMENTS (fun e => entriesEqual e { entry with valid := 1 })
      { entry with valid := 1 } p.segments = some q.segments := by
    rw [hq]
    exact hup
  have hapart := pairwise_upsert_iff entriesEqual_comm hp.apart hup'
  simp only [entriesEqual_valid] at hapart
  rw [← hq] at hup
  constructor
  · intro h
    have hstored := (Plan.restarts_iff q).1 h.restarts _ (mem_upsert hup)
    exact Or.inr ⟨⟨hstored.edges, hstored.label, hstored.description⟩, hapart.1 h.apart⟩
  · intro h
    obtain ⟨hstorable, hone⟩ := h.resolve_left htaken
    have hwide := lt_toFp_of_storable hstorable htaken
    refine ⟨q.size, fun e he => ?_, hapart.2 hone, (Plan.restarts_iff q).2 fun e he => ?_⟩
    · rcases mem_of_mem_upsert hup he with rfl | he
      · exact hwide
      · exact hp.wide e he
    · rcases mem_of_mem_upsert hup he with rfl | he
      · exact ⟨hstorable.edges, hstorable.label, hstorable.description⟩
      · exact (Plan.restarts_iff p).1 hp.restarts e he

theorem sound_remove {p : Plan} (hp : p.Sound) (rm : PktBandRemove) :
    (p.step (.remove rm)).Sound := by
  have hsub := applyRemove_sublist rm p.segments
  exact
    { length := (p.step (.remove rm)).size
      wide := fun e he => hp.wide e (hsub.subset he)
      apart := hp.apart.sublist hsub
      restarts := (Plan.restarts_iff _).2 fun e he =>
        (Plan.restarts_iff p).1 hp.restarts e (hsub.subset he) }

theorem sound_step_iff {p : Plan} (hp : p.Sound) (edit : Edit) :
    (p.step edit).Sound ↔ edit.Fits p.segments := by
  cases edit with
  | add entry => exact sound_put_iff hp rfl
  | update entry => exact sound_put_iff hp rfl
  | remove rm => exact iff_of_true (sound_remove hp rm) trivial

/-! ## Runs -/

/-- The plans of a run, the first one included. -/
def Plan.states (p : Plan) : List Edit → List Plan
  | [] => [p]
  | edit :: edits => p :: (p.step edit).states edits

/-- A run whose edits all fit where they are made. -/
def Plan.AllFit (p : Plan) : List Edit → Prop
  | [] => True
  | edit :: edits => edit.Fits p.segments ∧ (p.step edit).AllFit edits

theorem Plan.mem_states (p : Plan) (edits : List Edit) : p ∈ p.states edits := by
  cases edits <;> simp [states]

/-- From a plan that is as it should be, every plan of a run is so exactly if all edits of the run
fit. -/
theorem plan_of_edits {p : Plan} (hp : p.Sound) (edits : List Edit) :
    (∀ q ∈ p.states edits, q.Sound) ↔ p.AllFit edits := by
  induction edits generalizing p with
  | nil => simpa [Plan.states, Plan.AllFit] using hp
  | cons edit edits ih =>
    rw [Plan.states, Plan.AllFit, List.forall_mem_cons, ← sound_step_iff hp]
    constructor
    · rintro ⟨-, h⟩
      have hstep := h _ (Plan.mem_states _ edits)
      exact ⟨hstep, (ih hstep).1 h⟩
    · rintro ⟨hstep, h⟩
      exact ⟨hp, (ih hstep).2 h⟩

/-- The FM band. -/
def fmBand : PktBandEntry where
  freq_lo_mhz := ⟨0x42b00000⟩
  freq_hi_mhz := ⟨0x42d80000⟩
  label := .ofStr 24 (ascii "FM")
  description := .ofStr 128 (ascii "FM Broadcast")

theorem decimals_intCast (n : ℕ) {z : ℤ} (h : |z| ≤ 2 ^ 24) : decimals n z = z := by
  rw [decimals, Single.roundFixed_intCast, roundBits_intCast (by norm_num) (h.trans (by norm_num)),
    roundBits_intCast (by norm_num) h]

theorem isText_ofStr {n : ℕ} {s : Bytes} (hn : s.length ≤ n) (h0 : (0 : UInt8) ∉ s)
    (hs : s.all (fun c => !isLost c) = true) : IsText (.ofStr (n + 1) s : Chars (n + 1)) := by
  have hstr : (Chars.ofStr (n + 1) s).str = s := by
    rw [Chars.str_ofStr h0, List.take_of_length_le (by omega)]
  have hkept : ∀ c ∈ s, isLost c = false := fun c hc => by
    simpa using List.all_eq_true.1 hs c hc
  exact ⟨by rw [hstr]; exact hn, by rw [hstr]; exact hkept⟩

theorem storable_fmBand : fmBand.Storable where
  edges := by
    have hlo : fmBand.freq_lo_mhz.value = some ((88 : ℤ) : ℚ) := by
      have hbits : (0x42b00000 : UInt32).toNat = 133 * 2 ^ 23 + 3145728 := rfl
      simp only [fmBand, Binary32.value, hbits]
      norm_num [decode32]
    have hhi : fmBand.freq_hi_mhz.value = some ((108 : ℤ) : ℚ) := by
      have hbits : (0x42d80000 : UInt32).toNat = 133 * 2 ^ 23 + 5767168 := rfl
      simp only [fmBand, Binary32.value, hbits]
      norm_num [decode32]
    refine ⟨_, hlo, _, hhi, ?_⟩
    rw [decimals_intCast 4 (by norm_num), decimals_intCast 4 (by norm_num)]
    norm_num
  label := isText_ofStr (by decide) (by decide) (by decide)
  description := isText_ofStr (by decide) (by decide) (by decide)

/-- The FM band is added, updated, and removed. -/
theorem plan_of_fmBand : fmBand.Storable ∧ ∀ q ∈ Plan.empty.states
    [.add fmBand, .update fmBand, .remove ⟨fmBand.freq_lo_mhz, fmBand.freq_hi_mhz⟩], q.Sound := by
  refine ⟨storable_fmBand, (plan_of_edits Plan.sound_empty _).2
    ⟨Or.inr ⟨storable_fmBand, Nat.zero_le 1⟩, Or.inr ⟨storable_fmBand, ?_⟩, trivial, trivial⟩⟩
  refine (List.length_filter_le _ _).trans ?_
  change (put fmBand []).2.length ≤ 1
  rcases put_cases fmBand [] with ⟨-, h⟩ | ⟨-, segments', h, hup⟩
  · rw [h]
    exact Nat.zero_le 1
  · rw [h]
    exact (Option.some.inj hup) ▸ le_rfl

/-- A band from a little above 1 MHz to 2 MHz. -/
def bandTo2 (steps : UInt32) : PktBandEntry where
  valid := 1
  freq_lo_mhz := ⟨0x3f800000 + steps⟩
  freq_hi_mhz := ⟨0x40000000⟩

theorem value_bandTo2 {steps : UInt32} (h : steps.toNat < 2 ^ 23) :
    (bandTo2 steps).freq_lo_mhz.value = some (1 + (steps.toNat : ℚ) / 2 ^ 23) := by
  have hbits : (0x3f800000 + steps : UInt32).toNat = 0 * 2 ^ 31 + (127 * 2 ^ 23 + steps.toNat) := by
    have h1 : (0x3f800000 : UInt32).toNat = 127 * 2 ^ 23 := rfl
    rw [UInt32.toNat_add, h1]
    omega
  simp only [bandTo2, Binary32.value, hbits]
  rw [Binary32.decode32_normal (by norm_num) (by norm_num) (by norm_num) h]
  norm_num
  ring

theorem value_two (steps : UInt32) : (bandTo2 steps).freq_hi_mhz.value = some 2 := by
  have hbits : (0x40000000 : UInt32).toNat = 0 * 2 ^ 31 + (128 * 2 ^ 23 + 0) := rfl
  simp only [bandTo2, Binary32.value, hbits]
  rw [Binary32.decode32_normal (by norm_num) (by norm_num) (by norm_num) (by norm_num)]
  norm_num

theorem edgeTolerance_lt_zpow (k : ℤ) :
    edgeTolerance.lt (.ofRat (by norm_num) (2 ^ k)) = true ↔ -14 < k := by
  have hround := abs_le.1 (abs_roundBits_sub_le_mul 24 (1 / 10000))
  norm_num at hround
  have hpow : roundBits 24 ((2 : ℚ) ^ k) = 2 ^ k := by
    have h := Binary32.roundBits_mul_pow (m := 1) (by norm_num) k
    simpa using h
  have hlt : edgeTolerance.lt (.ofRat (by norm_num) (2 ^ k)) = true ↔
      roundBits 24 (1 / 10000) < (2 : ℚ) ^ k := by
    simp [edgeTolerance, Fp.ofRat, Fp.lt, hpow]
  rw [hlt]
  constructor
  · intro h
    by_contra hk
    have hle : (2 : ℚ) ^ k ≤ 2 ^ (-14 : ℤ) := zpow_le_zpow_right₀ (by norm_num) (by omega)
    norm_num at hle
    linarith
  · intro h
    have hle : (2 : ℚ) ^ (-13 : ℤ) ≤ 2 ^ k := zpow_le_zpow_right₀ (by norm_num) (by omega)
    norm_num at hle ⊢
    linarith

theorem entriesEqual_bandTo2 {a b : UInt32} (ha : a.toNat < 2 ^ 23) (hb : b.toNat < 2 ^ 23) {j : ℕ}
    (h : |(a.toNat : ℚ) - b.toNat| = 2 ^ j) :
    entriesEqual (bandTo2 a) (bandTo2 b) = true ↔ j ≤ 9 := by
  have hlo : |(1 + (a.toNat : ℚ) / 2 ^ 23) - (1 + b.toNat / 2 ^ 23)| = 2 ^ ((j : ℤ) - 23) := by
    rw [add_sub_add_left_eq_sub, ← sub_div, abs_div, h, abs_of_pos (by positivity),
      zpow_sub₀ (by norm_num)]
    norm_cast
  have hhi : edgeTolerance.lt (Binary32.dist (bandTo2 a).freq_hi_mhz (bandTo2 b).freq_hi_mhz) = false := by
    rw [Binary32.dist_of_value (value_two a) (value_two b), sub_self, abs_zero]
    have hround := abs_le.1 (abs_roundBits_sub_le_mul 24 (1 / 10000))
    norm_num at hround
    simp only [edgeTolerance, Fp.ofRat, Fp.lt, decide_eq_false_iff_not, not_lt]
    rw [roundBits, if_pos rfl]
    norm_num
    linarith
  rw [entriesEqual, hhi, Binary32.dist_of_value (value_bandTo2 ha) (value_bandTo2 hb), hlo]
  have htol := edgeTolerance_lt_zpow ((j : ℤ) - 23)
  simp only [Bool.false_eq_true, if_false, htol]
  split_ifs with hlt
  · simp only [false_iff]
    omega
  · simp only [true_iff]
    omega

/-- A band takes the place of one, and lies on the next. -/
theorem not_sound_of_update :
    ¬∀ q ∈ Plan.empty.states [.add (bandTo2 0), .add (bandTo2 1024), .update (bandTo2 512)],
      q.Sound := by
  intro h
  have h512 : (512 : UInt32).toNat = 512 := rfl
  have h1024 : (1024 : UInt32).toNat = 1024 := rfl
  -- the second band is new, the third is found at the first
  have hnew : entriesEqual (bandTo2 0) (bandTo2 1024) = false := by
    rw [Bool.eq_false_iff, ne_eq, entriesEqual_bandTo2 (j := 10) (by decide) (by decide)
      (by norm_num [h1024])]
    norm_num
  have hfound : entriesEqual (bandTo2 0) (bandTo2 512) = true :=
    (entriesEqual_bandTo2 (j := 9) (by decide) (by decide) (by norm_num [h512])).2 le_rfl
  have hsame : entriesEqual (bandTo2 512) (bandTo2 1024) = true :=
    (entriesEqual_bandTo2 (j := 9) (by decide) (by decide) (by norm_num [h512, h1024])).2 le_rfl
  have hwide : ∀ steps : UInt32, steps.toNat < 2 ^ 23 →
      (bandTo2 steps).freq_hi_mhz.toFp.le (bandTo2 steps).freq_lo_mhz.toFp = false := by
    intro steps hs
    rw [Bool.eq_false_iff, ne_eq, Binary32.le_toFp_iff (value_two steps) (value_bandTo2 hs), not_le]
    have hlt : (steps.toNat : ℚ) / 2 ^ 23 < 1 := by
      rw [div_lt_one (by positivity)]
      exact_mod_cast hs
    linarith
  have hput : ∀ (steps : UInt32), steps.toNat < 2 ^ 23 → ∀ segments,
      (put (bandTo2 steps) segments).2 = ((upsert MAX_BAND_SEGMENTS
        (fun e => entriesEqual e (bandTo2 steps)) (bandTo2 steps) segments).getD segments) := by
    intro steps hs segments
    have hvalid : { bandTo2 steps with valid := 1 } = bandTo2 steps := rfl
    rw [put, hwide steps hs, hvalid]
    simp only [Bool.false_eq_true, if_false]
    cases upsert MAX_BAND_SEGMENTS (fun e => entriesEqual e (bandTo2 steps)) (bandTo2 steps)
      segments <;> rfl
  have hlast : (((Plan.empty.step (.add (bandTo2 0))).step (.add (bandTo2 1024))).step
      (.update (bandTo2 512))).segments = [bandTo2 512, bandTo2 1024] := by
    change (put (bandTo2 512) (put (bandTo2 1024) (put (bandTo2 0) []).2).2).2 = _
    rw [hput 0 (by decide), hput 1024 (by decide), hput 512 (by decide)]
    simp [upsert, replaceFirst, hnew, hfound, MAX_BAND_SEGMENTS]
  have hmem : ((Plan.empty.step (.add (bandTo2 0))).step (.add (bandTo2 1024))).step
      (.update (bandTo2 512)) ∈ Plan.empty.states
        [.add (bandTo2 0), .add (bandTo2 1024), .update (bandTo2 512)] := by
    simp [Plan.states]
  have hapart := (h _ hmem).apart
  rw [hlast, List.pairwise_pair, hsame] at hapart
  cases hapart

end Bewe.HostBandPlan
