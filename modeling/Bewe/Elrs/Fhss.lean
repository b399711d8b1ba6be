import Mathlib.Tactic.Common
import Mathlib.Tactic.Ring
import Mathlib.Data.Nat.ModEq
import Mathlib.Data.List.OfFn

/-!
# Hop sequences

`fhss.py` and `uid.py` of the ELRS analysis: the generator `Rng`, the hop table that
`build_sequence` shuffles with it, and the four UID bytes that a seed stands for. A seed is any
Python integer and an index error is `none`. A table is a list of channels of the domain with the
domain's period (`exists_buildSequence`), and bit 31 of the seed has no part in it
(`buildSequence_congr`).
-/

namespace Bewe.Elrs

/-! ## The generator -/

/-- `Rng`. -/
structure Rng where
  seed : ℕ
  deriving DecidableEq

/-- `_LCG_M`, `_LCG_A`, `_LCG_C`. -/
def LCG_M : ℕ := 2147483648
@[inherit_doc LCG_M] def LCG_A : ℕ := 214013
@[inherit_doc LCG_M] def LCG_C : ℕ := 2531011

namespace Rng

/-- `Rng(seed)`. -/
def init (seed : ℤ) : Rng := ⟨(seed % 2 ^ 32).toNat⟩

/-- `rng`. -/
def rng (g : Rng) : ℕ × Rng :=
  let seed := (LCG_A * g.seed + LCG_C) % LCG_M
  (seed >>> 16, ⟨seed⟩)

/-- `rngN`. -/
def rngN (g : Rng) (max_ : ℕ) : ℕ × Rng := (g.rng.1 % max_, g.rng.2)

end Rng

/-! ## The table -/

/-- `FHSS_SEQUENCE_LEN`. -/
def FHSS_SEQUENCE_LEN : ℕ := 256

/-- A `Domain` with at least two channels, and no more than a table has room for. -/
structure Domain where
  freq_count : ℕ
  two_le : 2 ≤ freq_count
  le_len : freq_count ≤ FHSS_SEQUENCE_LEN

namespace Domain

variable (d : Domain)

/-- `sync_channel`. -/
def sync_channel : ℕ := d.freq_count / 2

/-- `band_count`. -/
def band_count : ℕ := FHSS_SEQUENCE_LEN / d.freq_count * d.freq_count

theorem band_count_pos : 0 < d.band_count := by
  have h2 := d.two_le
  have hdiv : 0 < FHSS_SEQUENCE_LEN / d.freq_count := Nat.div_pos d.le_len (by omega)
  exact Nat.mul_pos hdiv (by omega)

end Domain

/-- `seq[i], seq[j] = seq[j], seq[i]`. -/
def swap (seq : List ℕ) (i j : ℕ) : Option (List ℕ) := do
  let x ← seq[j]?
  let y ← seq[i]?
  return (seq.set i x).set j y

section

variable (d : Domain)

/-- The table before it is shuffled. -/
def initialSequence : List ℕ :=
  (List.range d.band_count).map fun i =>
    if i % d.freq_count = 0 then d.sync_channel
    else if i % d.freq_count = d.sync_channel then 0
    else i % d.freq_count

/-- The body of the loop that shuffles. -/
def randomise (st : List ℕ × Rng) (i : ℕ) : Option (List ℕ × Rng) :=
  if i % d.freq_count ≠ 0 then do
    let offset := i / d.freq_count * d.freq_count
    let (r, rng) := st.2.rngN (d.freq_count - 1)
    let seq ← swap st.1 i (offset + (r + 1))
    return (seq, rng)
  else some st

/-- `build_sequence`. -/
def buildSequence (seed : ℤ) : Option (List ℕ) :=
  ((List.range d.band_count).foldlM (randomise d) (initialSequence d, Rng.init seed)).map Prod.fst

end

/-- A hop table of the domain: of its period, with channels of its own. -/
structure IsTable (d : Domain) (seq : List ℕ) : Prop where
  length : seq.length = d.band_count
  channels : ∀ c ∈ seq, c < d.freq_count

theorem isTable_initialSequence (d : Domain) : IsTable d (initialSequence d) := by
  have h2 := d.two_le
  refine ⟨by simp [initialSequence], fun c hc => ?_⟩
  obtain ⟨i, -, rfl⟩ := List.mem_map.1 hc
  have hi : i % d.freq_count < d.freq_count := Nat.mod_lt _ (by omega)
  split_ifs
  · exact Nat.div_lt_self (by omega) (by omega)
  · omega
  · exact hi

theorem IsTable.swap {d : Domain} {seq : List ℕ} (h : IsTable d seq) {i j : ℕ}
    (hi : i < d.band_count) (hj : j < d.band_count) :
    ∃ seq', swap seq i j = some seq' ∧ IsTable d seq' := by
  rw [← h.length] at hi hj
  have hx : seq[j]? = some seq[j] := List.getElem?_eq_getElem hj
  have hy : seq[i]? = some seq[i] := List.getElem?_eq_getElem hi
  refine ⟨(seq.set i seq[j]).set j seq[i], by simp [Elrs.swap, hx, hy], ?_, ?_⟩
  · rw [List.length_set, List.length_set, h.length]
  · intro c hc
    rcases List.mem_or_eq_of_mem_set hc with hc | rfl
    · rcases List.mem_or_eq_of_mem_set hc with hc | rfl
      · exact h.channels c hc
      · exact h.channels _ (List.getElem_mem hj)
    · exact h.channels _ (List.getElem_mem hi)

theorem block_lt {d : Domain} {i r : ℕ} (hi : i < d.band_count) (hr : r < d.freq_count - 1) :
    i / d.freq_count * d.freq_count + (r + 1) < d.band_count := by
  have h2 := d.two_le
  have hblock : i / d.freq_count < FHSS_SEQUENCE_LEN / d.freq_count :=
    (Nat.div_lt_iff_lt_mul (by omega)).2 hi
  calc i / d.freq_count * d.freq_count + (r + 1)
      < i / d.freq_count * d.freq_count + d.freq_count := by omega
    _ = (i / d.freq_count + 1) * d.freq_count := by ring
    _ ≤ d.band_count := Nat.mul_le_mul_right _ hblock

theorem IsTable.randomise {d : Domain} {st : List ℕ × Rng} (h : IsTable d st.1) {i : ℕ}
    (hi : i < d.band_count) : ∃ st', randomise d st i = some st' ∧ IsTable d st'.1 := by
  have h2 := d.two_le
  unfold Elrs.randomise
  split_ifs with hsync
  · have hr : (st.2.rngN (d.freq_count - 1)).1 < d.freq_count - 1 := Nat.mod_lt _ (by omega)
    obtain ⟨seq, hseq, htable⟩ := h.swap hi (block_lt hi hr)
    exact ⟨(seq, (st.2.rngN (d.freq_count - 1)).2), by simp [hseq], htable⟩
  · exact ⟨st, rfl, h⟩

theorem IsTable.foldlM {d : Domain} {is : List ℕ} (his : ∀ i ∈ is, i < d.band_count)
    (st : List ℕ × Rng) (h : IsTable d st.1) :
    ∃ st', is.foldlM (Elrs.randomise d) st = some st' ∧ IsTable d st'.1 := by
  induction is generalizing st with
  | nil => exact ⟨st, rfl, h⟩
  | cons i is ih =>
    obtain ⟨st₁, hstep, h₁⟩ := h.randomise (his i List.mem_cons_self)
    obtain ⟨st₂, hrest, h₂⟩ := ih (fun j hj => his j (List.mem_cons_of_mem _ hj)) _ h₁
    exact ⟨st₂, by simp [List.foldlM_cons, hstep, hrest], h₂⟩

theorem exists_buildSequence (d : Domain) (seed : ℤ) :
    ∃ seq, buildSequence d seed = some seq ∧ IsTable d seq := by
  obtain ⟨st, hst, h⟩ := IsTable.foldlM (fun i hi => List.mem_range.1 hi)
    (initialSequence d, Rng.init seed) (isTable_initialSequence d)
  exact ⟨st.1, by simp [buildSequence, hst], h⟩

/-! ## The effective part of a seed -/

theorem Rng.rng_congr {g g' : Rng} (h : g.seed ≡ g'.seed [MOD LCG_M]) : g.rng = g'.rng := by
  have hnext : (LCG_A * g.seed + LCG_C) % LCG_M = (LCG_A * g'.seed + LCG_C) % LCG_M :=
    (h.mul_left LCG_A).add_right LCG_C
  simp only [Rng.rng, hnext]

theorem Rng.init_congr {s s' : ℤ} (h : s % 2 ^ 31 = s' % 2 ^ 31) :
    (Rng.init s).rng = (Rng.init s').rng := by
  refine Rng.rng_congr ?_
  unfold Nat.ModEq Rng.init LCG_M
  dsimp only
  omega

theorem randomise_congr (d : Domain) (seq : List ℕ) {g g' : Rng} (h : g.rng = g'.rng) (i : ℕ) :
    randomise d (seq, g) i = randomise d (seq, g') i ∨
      randomise d (seq, g) i = some (seq, g) ∧ randomise d (seq, g') i = some (seq, g') := by
  unfold randomise
  split_ifs with hsync
  · left
    have hn : g.rngN (d.freq_count - 1) = g'.rngN (d.freq_count - 1) := by
      unfold Rng.rngN
      rw [h]
    simp only [hn]
  · exact Or.inr ⟨rfl, rfl⟩

theorem foldlM_randomise_congr (d : Domain) (is : List ℕ) {seq : List ℕ} {g g' : Rng}
    (h : g.rng = g'.rng) :
    (is.foldlM (randomise d) (seq, g)).map Prod.fst =
      (is.foldlM (randomise d) (seq, g')).map Prod.fst := by
  induction is with
  | nil => rfl
  | cons i is ih =>
    simp only [List.foldlM_cons]
    rcases randomise_congr d seq h i with hstep | ⟨hg, hg'⟩
    · rw [hstep]
    · rw [hg, hg']
      exact ih

theorem buildSequence_congr (d : Domain) {s s' : ℤ} (h : s % 2 ^ 31 = s' % 2 ^ 31) :
    buildSequence d s = buildSequence d s' :=
  foldlM_randomise_congr d _ (Rng.init_congr h)

/-! ## UIDs -/

/-- `OTA_VERSION_ID`. -/
def OTA_VERSION_ID : ℕ := 4

/-- The last four bytes of a UID. -/
structure Uid where
  uid2 : UInt8
  uid3 : UInt8
  uid4 : UInt8
  uid5 : UInt8
  deriving DecidableEq

/-- `uid_to_seed`. -/
def uidToSeed (u : Uid) : ℕ :=
  (u.uid2.toNat <<< 24 + u.uid3.toNat <<< 16 + u.uid4.toNat <<< 8 +
    (u.uid5.toNat ^^^ OTA_VERSION_ID)) % 2 ^ 32

/-- `seed_to_uid2345`. -/
def seedToUid2345 (seed : ℕ) : ℕ × ℕ × ℕ × ℕ :=
  (seed >>> 24 &&& 0xFF, seed >>> 16 &&& 0xFF, seed >>> 8 &&& 0xFF, (seed &&& 0xFF) ^^^ OTA_VERSION_ID)

/-- `SEED_MASK`, applied to a seed. -/
def canonical (seed : ℤ) : ℕ := (seed % 2 ^ 31).toNat

theorem buildSequence_canonical (d : Domain) (seed : ℤ) :
    buildSequence d (canonical seed) = buildSequence d seed := by
  refine buildSequence_congr d ?_
  unfold canonical
  omega

theorem version_version (u : ℕ) : (u ^^^ OTA_VERSION_ID) ^^^ OTA_VERSION_ID = u := by
  rw [Nat.xor_assoc, Nat.xor_self, Nat.xor_zero]

theorem version_lt {u : ℕ} (h : u < 256) : u ^^^ OTA_VERSION_ID < 256 :=
  Nat.xor_lt_two_pow (n := 8) h (by decide)

theorem uidToSeed_eq (u : Uid) :
    uidToSeed u = u.uid2.toNat * 2 ^ 24 + u.uid3.toNat * 2 ^ 16 + u.uid4.toNat * 2 ^ 8 +
      (u.uid5.toNat ^^^ OTA_VERSION_ID) := by
  have h2 := u.uid2.toNat_lt
  have h3 := u.uid3.toNat_lt
  have h4 := u.uid4.toNat_lt
  have h5 := version_lt u.uid5.toNat_lt
  simp only [uidToSeed, Nat.shiftLeft_eq]
  exact Nat.mod_eq_of_lt (by omega)

/-- The UID that a seed of 32 bits stands for. -/
def uidOf (seed : UInt32) : Uid where
  uid2 := UInt8.ofNat (seedToUid2345 seed.toNat).1
  uid3 := UInt8.ofNat (seedToUid2345 seed.toNat).2.1
  uid4 := UInt8.ofNat (seedToUid2345 seed.toNat).2.2.1
  uid5 := UInt8.ofNat (seedToUid2345 seed.toNat).2.2.2

theorem seedToUid2345_eq (seed : ℕ) :
    seedToUid2345 seed = (seed / 2 ^ 24 % 256, seed / 2 ^ 16 % 256, seed / 2 ^ 8 % 256,
      seed % 256 ^^^ OTA_VERSION_ID) := by
  have hbyte : ∀ n : ℕ, n &&& 0xFF = n % 256 := fun n => Nat.and_two_pow_sub_one_eq_mod n 8
  simp only [seedToUid2345, hbyte, Nat.shiftRight_eq_div_pow]

theorem uidToSeed_eq_iff (u : Uid) (seed : UInt32) : uidToSeed u = seed.toNat ↔ u = uidOf seed := by
  have hlt := seed.toNat_lt
  have hbyte : ∀ n, (UInt8.ofNat (n % 256)).toNat = n % 256 := fun n =>
    UInt8.toNat_ofNat_of_lt' (Nat.mod_lt _ (by norm_num))
  have hlast : (UInt8.ofNat (seed.toNat % 256 ^^^ OTA_VERSION_ID)).toNat =
      seed.toNat % 256 ^^^ OTA_VERSION_ID :=
    UInt8.toNat_ofNat_of_lt' (version_lt (Nat.mod_lt _ (by norm_num)))
  constructor
  · intro h
    have h2 := u.uid2.toNat_lt
    have h3 := u.uid3.toNat_lt
    have h4 := u.uid4.toNat_lt
    have h5 := version_lt u.uid5.toNat_lt
    rw [uidToSeed_eq] at h
    have e2 : seed.toNat / 2 ^ 24 % 256 = u.uid2.toNat := by omega
    have e3 : seed.toNat / 2 ^ 16 % 256 = u.uid3.toNat := by omega
    have e4 : seed.toNat / 2 ^ 8 % 256 = u.uid4.toNat := by omega
    have e5 : seed.toNat % 256 = u.uid5.toNat ^^^ OTA_VERSION_ID := by omega
    obtain ⟨u2, u3, u4, u5⟩ := u
    simp only [uidOf, seedToUid2345_eq, e2, e3, e4, e5, version_version, UInt8.ofNat_toNat]
  · rintro rfl
    rw [uidToSeed_eq]
    simp only [uidOf, seedToUid2345_eq, hbyte, hlast, version_version]
    omega

theorem seedToUid2345_canonical (seed : UInt32) :
    seedToUid2345 (canonical seed.toNat) = ((uidOf seed).uid2.toNat &&& 0x7F,
      (uidOf seed).uid3.toNat, (uidOf seed).uid4.toNat, (uidOf seed).uid5.toNat) := by
  have hu := (uidToSeed_eq_iff (uidOf seed) seed).2 rfl
  have h2 := (uidOf seed).uid2.toNat_lt
  have h3 := (uidOf seed).uid3.toNat_lt
  have h4 := (uidOf seed).uid4.toNat_lt
  have h5 := version_lt (uidOf seed).uid5.toNat_lt
  rw [uidToSeed_eq] at hu
  have hmask : (uidOf seed).uid2.toNat &&& 0x7F = (uidOf seed).uid2.toNat % 128 :=
    Nat.and_two_pow_sub_one_eq_mod _ 7
  have hcanon : canonical seed.toNat = seed.toNat % 2 ^ 31 := by
    unfold canonical
    omega
  have e2 : seed.toNat % 2 ^ 31 / 2 ^ 24 % 256 = (uidOf seed).uid2.toNat % 128 := by omega
  have e3 : seed.toNat % 2 ^ 31 / 2 ^ 16 % 256 = (uidOf seed).uid3.toNat := by omega
  have e4 : seed.toNat % 2 ^ 31 / 2 ^ 8 % 256 = (uidOf seed).uid4.toNat := by omega
  have e5 : seed.toNat % 2 ^ 31 % 256 = (uidOf seed).uid5.toNat ^^^ OTA_VERSION_ID := by omega
  rw [seedToUid2345_eq, hcanon, hmask, e2, e3, e4, e5, version_version]

end Bewe.Elrs
