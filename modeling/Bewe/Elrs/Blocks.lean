import Bewe.Elrs.Fhss
import Mathlib.Data.Int.Bitwise
import Mathlib.Data.List.Nodup
import Mathlib.Data.List.Perm.Subperm
import Mathlib.Logic.Equiv.Basic

/-!
# The blocks of a hop table

What `build_sequence` guarantees of its table. The table is made of blocks of `freq_count` entries.
A swap of the shuffle is a transposition of two places of one block that are not its first, so
different places of a block keep different channels and the first keeps the sync channel
(`IsShuffle.randomise`). Hence each block is a permutation of the channels that starts with the sync
channel, and every channel occurs as often as there are blocks (`buildSequence_blocks`).
-/

namespace Bewe.Elrs

/-- A table in the course of its shuffle: the sync channel stands where a block starts, and two
places of one block have different channels. -/
structure IsShuffle (d : Domain) (seq : List ℕ) : Prop extends IsTable d seq where
  head : ∀ b < FHSS_SEQUENCE_LEN / d.freq_count, seq[b * d.freq_count]? = some d.sync_channel
  distinct : ∀ i j, i < d.band_count → i / d.freq_count = j / d.freq_count → seq[i]? = seq[j]? →
    i = j

/-! ## The table before it is shuffled -/

/-- The channel of place `i` before the shuffle. -/
def initialChannel (d : Domain) (i : ℕ) : ℕ :=
  if i % d.freq_count = 0 then d.sync_channel
  else if i % d.freq_count = d.sync_channel then 0
  else i % d.freq_count

theorem getElem?_initialSequence (d : Domain) {i : ℕ} (hi : i < d.band_count) :
    (initialSequence d)[i]? = some (initialChannel d i) := by
  rw [initialSequence, List.getElem?_map, List.getElem?_range hi]
  rfl

/-- A block ends where the table does, or before. -/
theorem Domain.block_le (d : Domain) {b : ℕ} (hb : b < FHSS_SEQUENCE_LEN / d.freq_count) :
    b * d.freq_count + d.freq_count ≤ d.band_count := by
  calc b * d.freq_count + d.freq_count = (b + 1) * d.freq_count := by ring
    _ ≤ d.band_count := Nat.mul_le_mul_right _ hb

theorem isShuffle_initialSequence (d : Domain) : IsShuffle d (initialSequence d) where
  toIsTable := isTable_initialSequence d
  head b hb := by
    have h2 := d.two_le
    have hle := d.block_le hb
    rw [getElem?_initialSequence d (by omega), initialChannel, Nat.mul_mod_left, if_pos rfl]
  distinct i j hi hblock hij := by
    have h2 := d.two_le
    have hj : j < d.band_count := by
      by_contra hj
      rw [getElem?_initialSequence d hi, List.getElem?_eq_none] at hij
      · cases hij
      · rw [(isTable_initialSequence d).length]
        omega
    rw [getElem?_initialSequence d hi, getElem?_initialSequence d hj, Option.some.injEq] at hij
    have hsync : d.sync_channel ≠ 0 := by
      have := Nat.div_pos h2 (by norm_num : 0 < 2)
      exact this.ne'
    -- the start of a block and the place of the sync channel are exchanged, no other place moves
    have hmod : i % d.freq_count = j % d.freq_count := by
      unfold initialChannel at hij
      split_ifs at hij <;> omega
    calc i = i / d.freq_count * d.freq_count + i % d.freq_count := (Nat.div_add_mod' _ _).symm
      _ = j / d.freq_count * d.freq_count + j % d.freq_count := by rw [hblock, hmod]
      _ = j := Nat.div_add_mod' _ _

/-! ## A step of the shuffle -/

/-- After a swap a place has what was at the place it is exchanged with. -/
theorem getElem?_swap {seq seq' : List ℕ} {i j : ℕ} (h : swap seq i j = some seq') (k : ℕ) :
    seq'[k]? = seq[Equiv.swap i j k]? := by
  obtain ⟨x, hx, h⟩ := Option.bind_eq_some_iff.1 h
  obtain ⟨y, hy, h⟩ := Option.bind_eq_some_iff.1 h
  obtain rfl : (seq.set i x).set j y = seq' := Option.some.inj h
  obtain ⟨hi, -⟩ := List.getElem?_eq_some_iff.1 hy
  obtain ⟨hj, -⟩ := List.getElem?_eq_some_iff.1 hx
  rw [List.getElem?_set, List.getElem?_set, List.length_set, Equiv.swap_apply_def]
  by_cases hkj : k = j
  · subst hkj
    rw [if_pos rfl, if_pos hj]
    split_ifs with hki
    · rw [hki, hy]
    · exact hy.symm
    · exact absurd rfl ‹¬k = k›
  · rw [if_neg (Ne.symm hkj)]
    by_cases hki : k = i
    · subst hki
      rw [if_pos rfl, if_pos hi, if_pos rfl, hx]
    · rw [if_neg (Ne.symm hki), if_neg hki, if_neg hkj]

/-- Two places of one block that are not its first are swapped. -/
theorem IsShuffle.swap {d : Domain} {seq seq' : List ℕ} (h : IsShuffle d seq) {i j : ℕ}
    (hi : i < d.band_count) (hj : j < d.band_count) (hblock : i / d.freq_count = j / d.freq_count)
    (hi0 : i % d.freq_count ≠ 0) (hj0 : j % d.freq_count ≠ 0)
    (hswap : Elrs.swap seq i j = some seq') : IsShuffle d seq' := by
  have hstay : ∀ k, Equiv.swap i j k / d.freq_count = k / d.freq_count := fun k => by
    rw [Equiv.swap_apply_def]
    split_ifs with hki hkj
    · rw [hki, hblock]
    · rw [hkj, hblock]
    · rfl
  obtain ⟨seq'', hseq'', htable⟩ := h.toIsTable.swap hi hj
  obtain rfl : seq'' = seq' := Option.some.inj (hseq''.symm.trans hswap)
  refine ⟨htable, fun b hb => ?_, fun k l hk hkl hsame => ?_⟩
  · have hi' : b * d.freq_count ≠ i := fun he => hi0 (by rw [← he, Nat.mul_mod_left])
    have hj' : b * d.freq_count ≠ j := fun he => hj0 (by rw [← he, Nat.mul_mod_left])
    rw [getElem?_swap hswap, Equiv.swap_apply_of_ne_of_ne hi' hj', h.head b hb]
  · rw [getElem?_swap hswap, getElem?_swap hswap] at hsame
    have hlt : Equiv.swap i j k < d.band_count := by
      rw [Equiv.swap_apply_def]
      split_ifs
      exacts [hj, hi, hk]
    exact (Equiv.swap i j).injective
      (h.distinct _ _ hlt (by rw [hstay, hstay, hkl]) hsame)

/-- A step of the shuffle, at any place and from any state of the generator. -/
theorem IsShuffle.randomise {d : Domain} {st st' : List ℕ × Rng} (h : IsShuffle d st.1) {i : ℕ}
    (hi : i < d.band_count) (hstep : Elrs.randomise d st i = some st') : IsShuffle d st'.1 := by
  have h2 := d.two_le
  unfold Elrs.randomise at hstep
  split_ifs at hstep with hsync
  · obtain ⟨seq, hseq, hst'⟩ := Option.bind_eq_some_iff.1 hstep
    obtain rfl := Option.some.inj hst'
    have hr : (st.2.rngN (d.freq_count - 1)).1 < d.freq_count - 1 := Nat.mod_lt _ (by omega)
    have hoffset : (st.2.rngN (d.freq_count - 1)).1 + 1 < d.freq_count := by omega
    refine h.swap hi (block_lt hi hr) ?_ hsync ?_ hseq
    · rw [Nat.mul_comm, Nat.mul_add_div (by omega), Nat.div_eq_of_lt hoffset, Nat.add_zero]
    · rw [Nat.mul_comm, Nat.mul_add_mod, Nat.mod_eq_of_lt hoffset]
      omega
  · obtain rfl := Option.some.inj hstep
    exact h

theorem IsShuffle.foldlM {d : Domain} {is : List ℕ} (his : ∀ i ∈ is, i < d.band_count)
    {st st' : List ℕ × Rng} (h : IsShuffle d st.1)
    (hrun : is.foldlM (Elrs.randomise d) st = some st') : IsShuffle d st'.1 := by
  induction is generalizing st with
  | nil =>
    obtain rfl := Option.some.inj hrun
    exact h
  | cons i is ih =>
    rw [List.foldlM_cons] at hrun
    obtain ⟨st₁, hstep, hrest⟩ := Option.bind_eq_some_iff.1 hrun
    exact ih (fun j hj => his j (List.mem_cons_of_mem _ hj))
      (h.randomise (his i List.mem_cons_self) hstep) hrest

theorem isShuffle_of_buildSequence {d : Domain} {seed : ℤ} {seq : List ℕ}
    (h : buildSequence d seed = some seq) : IsShuffle d seq := by
  obtain ⟨st, hst, rfl⟩ := Option.map_eq_some_iff.1 h
  exact IsShuffle.foldlM (fun i hi => List.mem_range.1 hi) (isShuffle_initialSequence d) hst

/-! ## Blocks -/

/-- Block `b` of a table. -/
def block (d : Domain) (seq : List ℕ) (b : ℕ) : List ℕ :=
  (seq.drop (b * d.freq_count)).take d.freq_count

section

variable {d : Domain} {seq : List ℕ} {b : ℕ}

theorem length_block (h : IsTable d seq) (hb : b < FHSS_SEQUENCE_LEN / d.freq_count) :
    (block d seq b).length = d.freq_count := by
  have hle := d.block_le hb
  rw [block, List.length_take, List.length_drop, h.length]
  omega

theorem getElem?_block {k : ℕ} (hk : k < d.freq_count) :
    (block d seq b)[k]? = seq[b * d.freq_count + k]? := by
  rw [block, List.getElem?_take_of_lt hk, List.getElem?_drop]

theorem IsShuffle.head?_block (h : IsShuffle d seq) (hb : b < FHSS_SEQUENCE_LEN / d.freq_count) :
    (block d seq b).head? = some d.sync_channel := by
  have h2 := d.two_le
  rw [List.head?_eq_getElem?, getElem?_block (by omega)]
  exact h.head b hb

theorem IsShuffle.nodup_block (h : IsShuffle d seq) (hb : b < FHSS_SEQUENCE_LEN / d.freq_count) :
    (block d seq b).Nodup := by
  have h2 := d.two_le
  have hle := d.block_le hb
  have hdiv : ∀ {k}, k < d.freq_count → (b * d.freq_count + k) / d.freq_count = b := fun hk => by
    rw [Nat.mul_comm, Nat.mul_add_div (by omega), Nat.div_eq_of_lt hk, Nat.add_zero]
  refine List.nodup_iff_getElem?_ne_getElem?.2 fun k l hkl hl hsame => ?_
  rw [length_block h.toIsTable hb] at hl
  have hk : k < d.freq_count := hkl.trans hl
  rw [getElem?_block hk, getElem?_block hl] at hsame
  have hplace := h.distinct (b * d.freq_count + k) (b * d.freq_count + l) (by omega)
    (by rw [hdiv hk, hdiv hl]) hsame
  omega

theorem IsShuffle.perm_block (h : IsShuffle d seq) (hb : b < FHSS_SEQUENCE_LEN / d.freq_count) :
    (block d seq b).Perm (List.range d.freq_count) := by
  have hsub : block d seq b ⊆ List.range d.freq_count := fun c hc =>
    List.mem_range.2 (h.channels c (List.mem_of_mem_drop (List.mem_of_mem_take hc)))
  refine (List.subperm_of_subset (h.nodup_block hb) hsub).perm_of_length_le ?_
  rw [List.length_range, length_block h.toIsTable hb]

/-- Every channel occurs once in each of the first blocks. -/
theorem IsShuffle.count_take (h : IsShuffle d seq) {c : ℕ} (hc : c < d.freq_count) (n : ℕ)
    (hn : n ≤ FHSS_SEQUENCE_LEN / d.freq_count) :
    (seq.take (n * d.freq_count)).count c = n := by
  induction n with
  | zero => rw [Nat.zero_mul, List.take_zero, List.count_nil]
  | succ n ih =>
    have hone : (block d seq n).count c = 1 := by
      rw [(h.perm_block hn).count_eq,
        List.count_eq_one_of_mem List.nodup_range (List.mem_range.2 hc)]
    have hsplit : seq.take ((n + 1) * d.freq_count) =
        seq.take (n * d.freq_count) ++ block d seq n := by
      rw [Nat.add_mul, Nat.one_mul, List.take_add]
      rfl
    rw [hsplit, List.count_append, ih (by omega), hone]

/-- Every channel occurs as often as there are blocks. -/
theorem IsShuffle.count (h : IsShuffle d seq) {c : ℕ} (hc : c < d.freq_count) :
    seq.count c = FHSS_SEQUENCE_LEN / d.freq_count := by
  have hall := h.count_take hc _ le_rfl
  rwa [show FHSS_SEQUENCE_LEN / d.freq_count * d.freq_count = seq.length from h.length.symm,
    List.take_length] at hall

end

/-! ## Bit 31 -/

/-- A flipped bit 31 leaves the lower bits of an integer as they are. -/
theorem xor_two_pow_mod (seed : ℤ) : Int.xor seed (2 ^ 31) % 2 ^ 31 = seed % 2 ^ 31 := by
  have hlow : ∀ m : ℕ, (m ^^^ 2 ^ 31) % 2 ^ 31 = m % 2 ^ 31 := fun m => by
    rw [Nat.xor_mod_two_pow, Nat.mod_self, Nat.xor_zero]
  cases seed with
  | ofNat m =>
    show ((m ^^^ 2 ^ 31 : ℕ) : ℤ) % 2 ^ 31 = (m : ℤ) % 2 ^ 31
    have := hlow m
    omega
  | negSucc m =>
    show Int.negSucc (m ^^^ 2 ^ 31) % 2 ^ 31 = Int.negSucc m % 2 ^ 31
    have := hlow m
    omega

/-- The shape of the table that `build_sequence` returns, for every seed: whole blocks, each of them
a permutation of the channels that starts with the sync channel, every channel as often as any
other, and the same table if bit 31 of the seed is flipped. -/
theorem buildSequence_blocks (d : Domain) (seed : ℤ) :
    ∃ seq, buildSequence d seed = some seq ∧
      seq.length = FHSS_SEQUENCE_LEN / d.freq_count * d.freq_count ∧
      (∀ b < FHSS_SEQUENCE_LEN / d.freq_count,
        (block d seq b).Perm (List.range d.freq_count) ∧
          (block d seq b).head? = some d.sync_channel) ∧
      (∀ c < d.freq_count, seq.count c = FHSS_SEQUENCE_LEN / d.freq_count) ∧
      buildSequence d (Int.xor seed (2 ^ 31)) = some seq := by
  obtain ⟨seq, hseq, -⟩ := exists_buildSequence d seed
  have h := isShuffle_of_buildSequence hseq
  refine ⟨seq, hseq, h.length, fun b hb => ⟨h.perm_block hb, h.head?_block hb⟩,
    fun c hc => h.count hc, ?_⟩
  rw [buildSequence_congr d (xor_two_pow_mod seed), hseq]

end Bewe.Elrs
