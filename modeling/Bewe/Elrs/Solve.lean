import Mathlib.Data.Finset.Basic
import Mathlib.Data.List.Sort
import Mathlib.Data.Int.ModEq
import Bewe.Lib.Collect
import Bewe.Elrs.Fhss

/-!
# The UID solver

`solve.py`: the offsets at which a hop table agrees with a set of observations
(`consistent_offsets`), and the search through a list of seeds (`solve_uid`). Observations are a
dictionary from relative hop indices to channels, here the list of its items in the order of
insertion. An index error is `none`.

`consistentOffsets_spec` says that no offset is missed although only the places of one channel are
tried, and `solveUid_spec` what a search returns. Observations that a seed makes are among those
that it fits, so that the seed is found (`solveUid_simulateObservations`).
-/

namespace Bewe.Elrs

open Lib

/-- A dictionary of observed channels. -/
abbrev Observations := List (ℕ × ℕ)

/-! ## Offsets -/

/-- `_positions_by_channel`. -/
def positionsByChannel (seq : List ℕ) (n_channels : ℕ) : Option (List (List ℕ)) :=
  seq.zipIdx.foldlM
    (fun by_ch p =>
      if p.1 < by_ch.length then some (by_ch.modify p.1 fun ps => ps ++ [p.2]) else none)
    (List.replicate n_channels [])

/-- The order of `sorted` on the items of a dictionary. -/
def itemLe (a b : ℕ × ℕ) : Bool := a.1 < b.1 || (a.1 = b.1 && a.2 ≤ b.2)

/-- Whether every observation is what the table has at the offset. -/
def fits (seq : List ℕ) (observations : Observations) (o : ℕ) : Bool :=
  observations.all fun p => seq[(o + p.1) % seq.length]? = some p.2

/-- `consistent_offsets`. -/
def consistentOffsets (seq : List ℕ) (observations : Observations) (n_channels : ℕ) :
    Option (List ℕ) :=
  match observations.mergeSort itemLe with
  | [] => some []
  | (r0, c0) :: items => do
    let by_ch ← positionsByChannel seq n_channels
    let positions ← by_ch[c0]?
    return (positions.map fun pos : ℕ => (((pos : ℤ) - r0) % seq.length).toNat).filter
      (fits seq ((r0, c0) :: items))

/-! ## Search -/

/-- `Solution`. -/
structure Solution where
  seed : ℕ
  offset : ℕ
  uid2345 : ℕ × ℕ × ℕ × ℕ
  deriving DecidableEq

/-- The solution of a seed without its bit 31 and an offset. -/
def solutionOf (key : ℕ × ℕ) : Solution :=
  let (u2, u3, u4, u5) := seedToUid2345 key.1
  { seed := key.1, offset := key.2, uid2345 := (u2 &&& 0x7F, u3, u4, u5) }

/-- The variables of `solve_uid`, and whether it has returned. -/
structure Search where
  sols : List Solution := []
  seen : List (ℕ × ℕ) := []
  returned : Bool := false

/-- The body of the loop over the offsets of a seed. -/
def Search.visit (max_solutions : ℕ) (seed : ℤ) (st : Search) (o : ℕ) : Search :=
  if st.returned then st
  else
    let key := (canonical seed, o)
    if key ∈ st.seen then st
    else
      let sols := st.sols ++ [solutionOf key]
      { sols := sols, seen := st.seen ++ [key], returned := decide (max_solutions ≤ sols.length) }

section

variable (d : Domain) (observations : Observations) (max_solutions : ℕ)

/-- The loop over the seeds. -/
def solveFrom (st : Search) : List ℤ → Option Search
  | [] => some st
  | seed :: seeds => do
    let seq ← buildSequence d seed
    let offsets ← consistentOffsets seq observations d.freq_count
    let st := offsets.foldl (Search.visit max_solutions seed) st
    if st.returned then some st else solveFrom st seeds

/-- `solve_uid`. -/
def solveUid (seed_iter : List ℤ) : Option (List Solution) :=
  (solveFrom d observations max_solutions {} seed_iter).map Search.sols

end

/-- `simulate_observations`. -/
def simulateObservations (d : Domain) (seed : ℤ) (n_hops : ℕ) (observed_channels : Finset ℕ)
    (start_offset : ℤ) : Option Observations := do
  let seq ← buildSequence d seed
  return (List.range n_hops).filterMap fun r : ℕ =>
    (seq[((start_offset + r) % seq.length).toNat]?).bind fun ch =>
      if ch ∈ observed_channels then some (r, ch) else none

/-! ## The offsets are those that fit -/

theorem positionsByChannel_spec {n_channels : ℕ} (seq : List ℕ) (h : ∀ c ∈ seq, c < n_channels) :
    ∃ by_ch, positionsByChannel seq n_channels = some by_ch ∧ by_ch.length = n_channels ∧
      ∀ c < n_channels, ∃ ps, by_ch[c]? = some ps ∧ ∀ pos, pos ∈ ps ↔ seq[pos]? = some c := by
  unfold positionsByChannel
  induction seq using List.reverseRecOn with
  | nil =>
    refine ⟨List.replicate n_channels [], rfl, List.length_replicate, fun c hc => ⟨[], ?_, ?_⟩⟩
    · rw [List.getElem?_replicate, if_pos hc]
    · intro pos
      simp
  | append_singleton seq ch ih =>
    obtain ⟨by_ch, hfold, hlen, hplaces⟩ := ih fun c hc => h c (List.mem_append_left _ hc)
    have hch : ch < n_channels := h ch (by simp)
    refine ⟨by_ch.modify ch fun ps => ps ++ [seq.length], ?_, ?_, ?_⟩
    · rw [List.zipIdx_append, List.foldlM_append, hfold]
      simp [List.zipIdx, hlen, hch]
    · rw [List.length_modify, hlen]
    · intro c hc
      obtain ⟨ps, hps, hmem⟩ := hplaces c hc
      by_cases heq : ch = c
      · subst heq
        refine ⟨ps ++ [seq.length], by rw [List.getElem?_modify_eq, hps]; rfl, fun pos => ?_⟩
        rw [List.mem_append, hmem, List.mem_singleton]
        rcases lt_trichotomy pos seq.length with hlt | rfl | hgt
        · rw [List.getElem?_append_left hlt]
          simp [hlt.ne]
        · simp
        · rw [List.getElem?_append_right hgt.le]
          simp [hgt.ne', hgt.le, show pos - seq.length ≠ 0 by omega]
      · refine ⟨ps, by rw [List.getElem?_modify_ne _ _ heq, hps], fun pos => ?_⟩
        rw [hmem]
        rcases lt_trichotomy pos seq.length with hlt | rfl | hgt
        · rw [List.getElem?_append_left hlt]
        · simp [heq]
        · rw [List.getElem?_append_right hgt.le]
          simp [hgt.le, show pos - seq.length ≠ 0 by omega]

theorem offset_of_position {n o r : ℕ} (ho : o < n) :
    (((((o + r) % n : ℕ) : ℤ) - r) % n).toNat = o := by
  have hsub : ((((o + r) % n : ℕ) : ℤ) - r) % n = (o : ℤ) % n := by
    have hmod := (Int.mod_modEq (o + r : ℤ) n).sub_right (r : ℤ)
    rw [add_sub_cancel_right] at hmod
    push_cast
    exact hmod
  rw [hsub, Int.emod_eq_of_lt (by omega) (by omega), Int.toNat_natCast]

theorem consistentOffsets_spec {d : Domain} {seq : List ℕ} (h : IsTable d seq)
    {observations : Observations} (hobs : ∀ p ∈ observations, p.2 < d.freq_count) :
    ∃ offsets, consistentOffsets seq observations d.freq_count = some offsets ∧
      ∀ o, o ∈ offsets ↔ observations ≠ [] ∧ o < d.band_count ∧ fits seq observations o = true := by
  have hperm := List.mergeSort_perm observations itemLe
  have hpos := d.band_count_pos
  unfold consistentOffsets
  cases hsort : observations.mergeSort itemLe with
  | nil =>
    rw [hsort] at hperm
    obtain rfl := List.nil_perm.1 hperm
    exact ⟨[], rfl, by simp⟩
  | cons p items =>
    obtain ⟨r0, c0⟩ := p
    rw [hsort] at hperm
    have hfits : ∀ o, fits seq ((r0, c0) :: items) o = fits seq observations o := fun o =>
      hperm.all_eq
    have hfirst : (r0, c0) ∈ observations := hperm.mem_iff.1 List.mem_cons_self
    have hne : observations ≠ [] := List.ne_nil_of_mem hfirst
    obtain ⟨by_ch, hby, -, hplaces⟩ := positionsByChannel_spec seq h.channels
    obtain ⟨ps, hps, hmem⟩ := hplaces c0 (hobs _ hfirst)
    refine ⟨_, by simp only [hby, hps, Option.bind_eq_bind, Option.bind_some, pure]; rfl, fun o => ?_⟩
    rw [List.mem_filter, hfits, List.mem_map, h.length]
    constructor
    · rintro ⟨⟨pos, -, rfl⟩, ho⟩
      have hlt : ((pos : ℤ) - r0) % d.band_count < d.band_count :=
        Int.emod_lt_of_pos _ (by omega)
      exact ⟨hne, by omega, ho⟩
    · rintro ⟨-, ho, hfit⟩
      have hat : seq[(o + r0) % seq.length]? = some c0 := by
        simpa using List.all_eq_true.1 hfit _ hfirst
      rw [h.length] at hat
      exact ⟨⟨(o + r0) % d.band_count, (hmem _).2 hat, offset_of_position ho⟩, hfit⟩

/-! ## What a search returns -/

/-- The search as one for pairs of seed and offset. -/
def Search.collected (st : Search) : Collected (ℕ × ℕ) := ⟨st.seen, st.returned⟩

/-- The solutions are those of the pairs that have been seen. -/
def Search.Kept (st : Search) : Prop := st.sols = st.seen.map solutionOf

theorem Search.Kept.visit {st : Search} (h : st.Kept) (max_solutions : ℕ) (seed : ℤ) (o : ℕ) :
    (st.visit max_solutions seed o).Kept ∧
      (st.visit max_solutions seed o).collected =
        st.collected.add max_solutions (canonical seed, o) := by
  have hlen : st.sols.length = st.seen.length := by rw [h, List.length_map]
  unfold Search.visit Collected.add Search.collected
  dsimp only
  split_ifs
  · exact ⟨h, rfl⟩
  · exact ⟨h, rfl⟩
  · refine ⟨?_, ?_⟩
    · rw [Search.Kept, h, List.map_append, List.map_singleton]
    · rw [List.length_append, List.length_singleton, hlen]

theorem Search.Kept.foldl {st : Search} (h : st.Kept) (max_solutions : ℕ) (seed : ℤ)
    (offsets : List ℕ) :
    (offsets.foldl (Search.visit max_solutions seed) st).Kept ∧
      (offsets.foldl (Search.visit max_solutions seed) st).collected =
        (offsets.map (canonical seed, ·)).foldl (Collected.add max_solutions) st.collected := by
  induction offsets generalizing st with
  | nil => exact ⟨h, rfl⟩
  | cons o offsets ih =>
    obtain ⟨hkept, hstep⟩ := h.visit max_solutions seed o
    obtain ⟨hend, hrest⟩ := ih hkept
    exact ⟨hend, by rw [List.foldl_cons, hrest, hstep, List.map_cons, List.foldl_cons]⟩

/-- A pair that fits: its seed is that of a candidate, and the candidate's table has every
observation at the offset. -/
def Fits (d : Domain) (observations : Observations) (seeds : List ℤ) (key : ℕ × ℕ) : Prop :=
  ∃ seed ∈ seeds, key.1 = canonical seed ∧ observations ≠ [] ∧ key.2 < d.band_count ∧
    ∃ seq, buildSequence d seed = some seq ∧ fits seq observations key.2 = true

section

variable {d : Domain} {observations : Observations} {max_solutions : ℕ}

theorem solveFrom_spec (hobs : ∀ p ∈ observations, p.2 < d.freq_count) (seeds : List ℤ)
    (before : List ℤ) {st : Search} (hkept : st.Kept)
    (h : st.collected.Sound max_solutions (Fits d observations before)) :
    ∃ st', solveFrom d observations max_solutions st seeds = some st' ∧ st'.Kept ∧
      st'.collected.Sound max_solutions (Fits d observations (before ++ seeds)) := by
  induction seeds generalizing before st with
  | nil => exact ⟨st, rfl, hkept, by rwa [List.append_nil]⟩
  | cons seed seeds ih =>
    obtain ⟨seq, hseq, htable⟩ := exists_buildSequence d seed
    obtain ⟨offsets, hoffsets, hmem⟩ := consistentOffsets_spec htable hobs
    obtain ⟨hkept', hcollected⟩ :=
      hkept.foldl max_solutions seed offsets
    -- the pairs of this seed are shown
    have hsound : (offsets.foldl (Search.visit max_solutions seed) st).collected.Sound max_solutions
        (Fits d observations (before ++ [seed])) := by
      rw [hcollected]
      refine (h.foldl (offsets.map (canonical seed, ·))).congr fun key => ?_
      constructor
      · rintro (⟨s, hs, hfit⟩ | hkey)
        · exact ⟨s, List.mem_append_left _ hs, hfit⟩
        · obtain ⟨o, ho, rfl⟩ := List.mem_map.1 hkey
          obtain ⟨hne, hlt, hfit⟩ := (hmem o).1 ho
          exact ⟨seed, by simp, rfl, hne, hlt, seq, hseq, hfit⟩
      · rintro ⟨s, hs, hcanon, hne, hlt, seq', hseq', hfit⟩
        rcases List.mem_append.1 hs with hs | hs
        · exact Or.inl ⟨s, hs, hcanon, hne, hlt, seq', hseq', hfit⟩
        · obtain rfl := List.mem_singleton.1 hs
          obtain rfl : seq = seq' := Option.some.inj (hseq.symm.trans hseq')
          refine Or.inr (List.mem_map.2 ⟨key.2, (hmem _).2 ⟨hne, hlt, hfit⟩, ?_⟩)
          rw [← hcanon]
    have happend : before ++ [seed] ++ seeds = before ++ seed :: seeds := by simp
    unfold solveFrom
    simp only [hseq, hoffsets, Option.bind_eq_bind, Option.bind_some]
    split_ifs with hreturned
    · refine ⟨_, rfl, hkept', hsound.mono hreturned ?_⟩
      rintro key ⟨s, hs, hfit⟩
      exact ⟨s, by rw [← happend]; exact List.mem_append_left _ hs, hfit⟩
    · rw [← happend]
      exact ih _ hkept' hsound

/-- What `solve_uid` returns: the solutions of different pairs that fit, and all of them unless the
limit is reached. -/
theorem solveUid_spec (max_solutions : ℕ) (hobs : ∀ p ∈ observations, p.2 < d.freq_count) (seeds : List ℤ) :
    ∃ keys : List (ℕ × ℕ),
      solveUid d observations max_solutions seeds = some (keys.map solutionOf) ∧ keys.Nodup ∧
      (∀ key ∈ keys, Fits d observations seeds key) ∧
      (keys.length = max 1 max_solutions ∨ ∀ key, Fits d observations seeds key → key ∈ keys) := by
  have hstart : (({} : Search).collected).Sound max_solutions (Fits d observations []) :=
    (Collected.sound_start max_solutions).congr fun key => by simp [Fits]
  have hempty : ({} : Search).Kept := rfl
  obtain ⟨st, hst, hkept, hsound⟩ := solveFrom_spec hobs seeds [] hempty hstart
  rw [List.nil_append] at hsound
  refine ⟨st.seen, by rw [solveUid, hst, Option.map_some, hkept], hsound.nodup, hsound.shown, ?_⟩
  cases hreturned : st.returned with
  | true => exact Or.inl (hsound.enough hreturned)
  | false => exact Or.inr (hsound.all hreturned)

end

/-! ## A simulated hop pattern -/

/-- The observations of a seed's hop pattern: what its table has at the offset, in channels of the
domain. -/
theorem simulateObservations_spec {d : Domain} {seed start_offset : ℤ} {n_hops : ℕ}
    {observed_channels : Finset ℕ} {observations : Observations}
    (h : simulateObservations d seed n_hops observed_channels start_offset = some observations) :
    (∀ p ∈ observations, p.2 < d.freq_count) ∧
      ∃ seq, buildSequence d seed = some seq ∧
        fits seq observations (start_offset % d.band_count).toNat = true := by
  obtain ⟨seq, hseq, htable⟩ := exists_buildSequence d seed
  have hpos := d.band_count_pos
  simp only [simulateObservations, hseq, Option.bind_eq_bind, Option.bind_some, pure,
    Option.some.injEq] at h
  have hat : ∀ p ∈ observations,
      seq[((start_offset % d.band_count).toNat + p.1) % seq.length]? = some p.2 := by
    rintro ⟨r, c⟩ hp
    rw [← h, List.mem_filterMap] at hp
    obtain ⟨r', -, hr⟩ := hp
    obtain ⟨ch, hch, hpick⟩ := Option.bind_eq_some_iff.1 hr
    split_ifs at hpick with hvisible
    · obtain ⟨rfl, rfl⟩ : r' = r ∧ ch = c := by simpa using hpick
      rw [htable.length] at hch ⊢
      have hindex : ((start_offset + r') % d.band_count).toNat =
          ((start_offset % d.band_count).toNat + r') % d.band_count := by
        have hnonneg : 0 ≤ start_offset % d.band_count := Int.emod_nonneg _ (by omega)
        have hcast : (((start_offset % d.band_count).toNat + r' : ℕ) : ℤ) % d.band_count =
            (start_offset + r') % d.band_count := by
          push_cast
          rw [Int.toNat_of_nonneg hnonneg, Int.emod_add_emod]
        rw [← hcast]
        exact Int.toNat_natCast _
      rw [← hindex]
      exact hch
  refine ⟨fun p hp => htable.channels _ (List.mem_of_getElem? (hat p hp)), seq, hseq, ?_⟩
  rw [fits, List.all_eq_true]
  intro p hp
  simpa using hat p hp

/-- The solver is sound and complete. On the observations of a seed's hop pattern, with the seed or
its twin in the list, it returns as many solutions as it is asked for (one at least), or the pair
of the seed without its bit 31 and the offset exactly once, with the bytes of the UID of that seed; what it
returns reproduces all observations, and no pair is returned twice. -/
theorem solveUid_simulateObservations (d : Domain) (s : UInt32) (start_offset : ℤ) (n_hops : ℕ)
    (observed_channels : Finset ℕ) (seeds : List ℤ) (max_solutions : ℕ) (observations : Observations)
    (hobs : simulateObservations d s.toNat n_hops observed_channels start_offset = some observations)
    (hne : observations ≠ [])
    (hs : (s.toNat : ℤ) ∈ seeds ∨ ((s ^^^ 0x80000000).toNat : ℤ) ∈ seeds) :
    ∃ u, uidToSeed u = s.toNat ∧ ∃ sols, solveUid d observations max_solutions seeds = some sols ∧
      (sols.length = max 1 max_solutions ∨
        (sols.filter fun sol => sol.seed = s.toNat % 2 ^ 31 ∧
            sol.offset = (start_offset % d.band_count).toNat) =
          [{ seed := s.toNat % 2 ^ 31
             offset := (start_offset % d.band_count).toNat
             uid2345 := (u.uid2.toNat &&& 0x7F, u.uid3.toNat, u.uid4.toNat, u.uid5.toNat) }]) ∧
      (∀ sol ∈ sols, ∃ seq, buildSequence d sol.seed = some seq ∧
        ∀ p ∈ observations, seq[(sol.offset + p.1) % seq.length]? = some p.2) ∧
      (sols.map fun sol => (sol.seed, sol.offset)).Nodup := by
  obtain ⟨hchannels, seq, hseq, hfits⟩ := simulateObservations_spec hobs
  obtain ⟨keys, hsolve, hnodup, hsound, hcomplete⟩ :=
    solveUid_spec max_solutions hchannels seeds
  have hpos := d.band_count_pos
  have hkey : ∀ key : ℕ × ℕ, ((solutionOf key).seed, (solutionOf key).offset) = key := fun _ => rfl
  have hcanon : canonical s.toNat = s.toNat % 2 ^ 31 := by
    unfold canonical
    omega
  have hoffset : (start_offset % d.band_count).toNat < d.band_count := by
    have hlt : start_offset % d.band_count < d.band_count := Int.emod_lt_of_pos _ (by omega)
    omega
  -- the seed and its twin have the same table, so that either of them fits
  have htwin : ((s ^^^ 0x80000000).toNat : ℤ) % 2 ^ 31 = (s.toNat : ℤ) % 2 ^ 31 := by
    have hxor : (s ^^^ 0x80000000).toNat % 2 ^ 31 = s.toNat % 2 ^ 31 := by
      rw [UInt32.toNat_xor, Nat.xor_mod_two_pow]
      exact Nat.xor_zero _
    omega
  have hfit : Fits d observations seeds (canonical s.toNat, (start_offset % d.band_count).toNat) := by
    rcases hs with hs | hs
    · exact ⟨_, hs, rfl, hne, hoffset, seq, hseq, hfits⟩
    · refine ⟨_, hs, ?_, hne, hoffset, seq, ?_, hfits⟩
      · rw [canonical, canonical, htwin]
      · rw [buildSequence_congr d htwin, hseq]
  refine ⟨uidOf s, (uidToSeed_eq_iff _ s).2 rfl, keys.map solutionOf, hsolve, ?_, ?_, ?_⟩
  · refine hcomplete.imp (fun h => by rw [List.length_map, h]) fun hall => ?_
    rw [List.filter_map]
    have hpick : keys.filter ((fun sol : Solution => decide (sol.seed = s.toNat % 2 ^ 31 ∧
        sol.offset = (start_offset % d.band_count).toNat)) ∘ solutionOf) =
        [(canonical s.toNat, (start_offset % d.band_count).toNat)] := by
      rw [← List.replicate_one, ← List.count_eq_one_of_mem hnodup (hall _ hfit), ← List.filter_eq]
      refine List.filter_congr fun key _ => ?_
      rw [hcanon, Function.comp_apply, decide_eq_decide]
      exact ⟨fun h => Prod.ext h.1 h.2, fun h => ⟨congrArg Prod.fst h, congrArg Prod.snd h⟩⟩
    rw [hpick, List.map_singleton, solutionOf, seedToUid2345_canonical]
    simp only [hcanon, Nat.and_assoc, Nat.and_self]
  · intro sol hsol
    obtain ⟨key, hmem, rfl⟩ := List.mem_map.1 hsol
    obtain ⟨seed, -, hcan, -, -, seq', hseq', hfit'⟩ := hsound key hmem
    refine ⟨seq', ?_, fun p hp => of_decide_eq_true (List.all_eq_true.1 hfit' p hp)⟩
    rw [show (solutionOf key).seed = canonical seed from hcan, buildSequence_canonical, hseq']
  · rw [List.map_map]
    have hid : ((fun sol : Solution => (sol.seed, sol.offset)) ∘ solutionOf) = id := funext hkey
    rwa [hid, List.map_id]

/-- 140 hops of the seed 5, of which three are on channels that are seen, with its twin in the list. -/
theorem solveUid_simulateObservations_sync :
    ∃ u, uidToSeed u = 5 ∧ ∃ sols,
      solveUid ⟨129, by decide, by decide⟩ [(28, 17), (31, 3), (127, 64)] 8 [7, 2147483653] = some sols ∧
      (sols.length = 8 ∨ (sols.filter fun sol => sol.seed = 5 ∧ sol.offset = 2) =
        [⟨5, 2, u.uid2.toNat &&& 0x7F, u.uid3.toNat, u.uid4.toNat, u.uid5.toNat⟩]) := by
  obtain ⟨u, hu, sols, hsolve, hfound, -, -⟩ :=
    solveUid_simulateObservations ⟨129, by decide, by decide⟩ 5 2 140 {64, 3, 17} [7, 2147483653] 8
      [(28, 17), (31, 3), (127, 64)] (by decide +kernel) (by decide) (Or.inr (by decide))
  exact ⟨u, hu, sols, hsolve, hfound⟩

end Bewe.Elrs
