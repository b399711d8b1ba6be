import Bewe.Relay.Operators

/-!
# The cached CHANNEL_SYNC under concurrent rebuilds

`rebuild_and_broadcast_ch_sync` copies the cache under one lock, rewrites the audio masks of the
copy under another, and stores the copy back under the first again. HOST's thread stores what HOST
sends and rebuilds; any number of JOINs' threads rebuild when their JOIN changes what it listens to.
The locked sections are the steps.

A rebuild that has copied the cache before HOST's packet was stored, and stores its copy after,
takes the packet away again. `follows_of_run`: in every run in which none does, the cache is what
HOST has sent last, and the masks are those of the JOINs that were looked at.
-/

namespace Bewe.Relay

open Lib Hist

/-! ## Masks in a packet -/

/-- Where the mask of a channel is. -/
def maskOffset (ch : ℕ) : ℕ := BEWE_HDR_SIZE + ch * HostRoom.CH_SYNC_ENTRY_SIZE +
  HostRoom.CH_SYNC_MASK_OFFSET

/-- The mask of a channel. -/
def maskOf (ch : ℕ) (sync : Bytes) : ℕ := leNat (slice (maskOffset ch) 4 sync)

/-- Whether a place of a packet is in the mask of one of the first channels. -/
def InMask (n i : ℕ) : Prop := ∃ ch < n, maskOffset ch ≤ i ∧ i < maskOffset ch + 4

/-- Two packets are the same but for the masks. -/
structure SameButMasks (a b : Bytes) : Prop where
  length : b.length = a.length
  get : ∀ i, ¬InMask MAX_CHANNELS_RELAY i → b[i]? = a[i]?

/-- The length of a raw packet. -/
def RAW_LENGTH : ℕ := BEWE_HDR_SIZE + HostRoom.CH_SYNC_RAW_BODY

theorem maskOffset_add_le {ch n : ℕ} (h : ch < n) (hn : n ≤ MAX_CHANNELS_RELAY) :
    maskOffset ch + 4 ≤ RAW_LENGTH := by
  simp only [maskOffset, RAW_LENGTH, HostRoom.CH_SYNC_RAW_BODY, HostRoom.CH_SYNC_ENTRY_SIZE,
    HostRoom.CH_SYNC_MASK_OFFSET, MAX_CHANNELS_RELAY] at hn ⊢
  omega

theorem maskOffset_add_lt {ch k : ℕ} (h : ch < k) : maskOffset ch + 4 ≤ maskOffset k := by
  simp only [maskOffset, HostRoom.CH_SYNC_ENTRY_SIZE]
  omega

theorem rewriteMasks_succ (joins : List JoinEntry) (n : ℕ) (sync : Bytes) :
    HostRoom.rewriteMasks joins (n + 1) sync =
      splice (maskOffset n) (leBytes 4 (HostRoom.newMask joins n
        (maskOf n (HostRoom.rewriteMasks joins n sync))))
        (HostRoom.rewriteMasks joins n sync) := rfl

theorem rewriteMasks_spec (joins : List JoinEntry) {n : ℕ} (hn : n ≤ MAX_CHANNELS_RELAY)
    {sync : Bytes} (hlen : RAW_LENGTH ≤ sync.length) :
    (HostRoom.rewriteMasks joins n sync).length = sync.length ∧
      (∀ i, ¬InMask n i → (HostRoom.rewriteMasks joins n sync)[i]? = sync[i]?) ∧
      (∀ ch, n ≤ ch → maskOf ch (HostRoom.rewriteMasks joins n sync) = maskOf ch sync) ∧
      ∀ ch < n, maskOf ch (HostRoom.rewriteMasks joins n sync) =
        HostRoom.newMask joins ch (maskOf ch sync) % 256 ^ 4 := by
  induction n with
  | zero => exact ⟨rfl, fun _ _ => rfl, fun _ _ => rfl, fun _ h => absurd h (Nat.not_lt_zero _)⟩
  | succ n ih =>
    obtain ⟨hlength, hget, hmask, hnew⟩ := ih (by omega)
    rw [rewriteMasks_succ]
    generalize hs : HostRoom.rewriteMasks joins n sync = s at hlength hget hmask hnew
    generalize hm : HostRoom.newMask joins n (maskOf n s) = m
    have hend := maskOffset_add_le (Nat.lt_succ_self n) hn
    have hv : (leBytes 4 m).length = 4 := leBytes_length 4 m
    have hat : maskOffset n ≤ s.length := by omega
    refine ⟨?_, ?_, ?_, ?_⟩
    · rw [splice_length (by omega), hlength]
    · intro i hi
      have hout : ¬InMask n i := fun ⟨ch, hch, hin⟩ => hi ⟨ch, by omega, hin⟩
      rw [getElem?_splice hat, hv, hget i hout]
      split_ifs with hlt hin
      · rfl
      · exact absurd ⟨n, by omega, by omega, hin⟩ hi
      · rfl
    · intro ch hch
      have hafter := maskOffset_add_lt (show n < ch by omega)
      rw [maskOf, slice_splice_of_ge (by omega) hat]
      exact hmask ch (by omega)
    · intro ch hch
      rcases Nat.lt_succ_iff_lt_or_eq.1 hch with hlt | rfl
      · have hbefore := maskOffset_add_lt hlt
        rw [maskOf, slice_splice_of_le hbefore hat]
        exact hnew ch hlt
      · have hself := slice_splice_self (v := leBytes 4 m) hat
        rw [hv] at hself
        rw [maskOf, hself, leNat_leBytes_mod, ← hm, hmask ch le_rfl]

/-! ## Agreeing with HOST -/

/-- The numbers of operators fit a mask, and none has HOST's bit. HOST gives the numbers from 1 to
16 (`Numbered.op_index`). -/
def OperatorNumbers (joins : List JoinEntry) : Prop :=
  ∀ j ∈ joins, j.authed = true → 1 ≤ j.op_index.toNat ∧ j.op_index.toNat ≤ 31

instance (joins : List JoinEntry) : Decidable (OperatorNumbers joins) :=
  inferInstanceAs (Decidable (∀ j ∈ joins, _ → _))

/-- A packet that is HOST's but for the bits of JOINs. -/
structure Agrees (raw sync : Bytes) : Prop where
  same : SameButMasks raw sync
  bit : ∀ ch < MAX_CHANNELS_RELAY, (maskOf ch sync).testBit 0 = (maskOf ch raw).testBit 0

theorem Agrees.refl (raw : Bytes) : Agrees raw raw := ⟨⟨rfl, fun _ _ => rfl⟩, fun _ _ => rfl⟩

theorem testBit_mask {joins : List JoinEntry} {sync : Bytes} (hlen : RAW_LENGTH ≤ sync.length)
    {ch : ℕ} (hch : ch < MAX_CHANNELS_RELAY) (i : ℕ) :
    (maskOf ch (HostRoom.rewriteMasks joins MAX_CHANNELS_RELAY sync)).testBit i = true ↔
      i < 32 ∧ ((i = 0 ∧ (maskOf ch sync).testBit 0 = true) ∨
        ∃ j ∈ joins, j.live = true ∧ j.recv_audio.getD ch true = true ∧
          j.op_index.toNat % 32 = i) := by
  rw [(rewriteMasks_spec joins le_rfl hlen).2.2.2 ch hch, show 256 ^ 4 = 2 ^ 32 by norm_num,
    Nat.testBit_mod_two_pow, Bool.and_eq_true, decide_eq_true_eq, testBit_newMask]

theorem Agrees.rewriteMasks {raw sync : Bytes} (h : Agrees raw sync)
    (hlen : RAW_LENGTH ≤ sync.length) {joins : List JoinEntry} (hj : OperatorNumbers joins) :
    Agrees raw (HostRoom.rewriteMasks joins MAX_CHANNELS_RELAY sync) := by
  obtain ⟨hlength, hget, -, -⟩ := rewriteMasks_spec joins le_rfl hlen
  refine ⟨⟨hlength.trans h.same.length, fun i hi => (hget i hi).trans (h.same.get i hi)⟩,
    fun ch hch => ?_⟩
  rw [← h.bit ch hch, Bool.eq_iff_iff, testBit_mask hlen hch]
  constructor
  · rintro ⟨-, ⟨-, hbit⟩ | ⟨j, hmem, hlive, -, hzero⟩⟩
    · exact hbit
    · -- no operator has bit 0
      have hnum := hj j hmem (Bool.and_eq_true_iff.1 hlive).1
      omega
  · exact fun hbit => ⟨by decide, Or.inl ⟨rfl, hbit⟩⟩

/-! ## Threads -/

/-- The threads that rebuild: HOST's, and those of the JOINs. -/
inductive Thread
  | host
  | join (n : ℕ)
  deriving DecidableEq

/-- How far a rebuild has come: it was called, it has copied the cache, it has looked at the JOINs.
The numbers are history: how many packets of HOST had been stored when it copied, and which JOINs it
has seen, as the how many of those who looked. -/
inductive Rebuild
  | entered
  | copied (base_sync : Bytes) (version : ℕ)
  | looked (base_sync : Bytes) (version : ℕ) (seen : List JoinEntry) (turn : ℕ)

/-- The cache, the JOINs, and the rebuilds in progress. History: the last packet of HOST, raw, and
how many there were; how often a rebuild has looked at the JOINs, and at which the last time; which
JOINs the one had seen that stored last. -/
structure ChannelCache where
  cached_ch_sync : Bytes
  joins : List JoinEntry
  rebuilds : Thread → Option Rebuild
  host : Option Bytes
  version : ℕ
  looks : ℕ
  lastSeen : List JoinEntry
  storedSeen : List JoinEntry

namespace ChannelCache

/-- Before HOST has sent anything. -/
def start : ChannelCache := ⟨[], [], fun _ => none, none, 0, 0, [], []⟩

/-- A thread's rebuild changed. -/
def set (s : ChannelCache) (t : Thread) (r : Option Rebuild) : ChannelCache :=
  { s with rebuilds := Function.update s.rebuilds t r }

@[simp] theorem set_rebuilds_self (s : ChannelCache) (t : Thread) (r : Option Rebuild) :
    (s.set t r).rebuilds t = r := Function.update_self _ _ _

theorem set_rebuilds_of_ne (s : ChannelCache) {t u : Thread} (h : u ≠ t) (r : Option Rebuild) :
    (s.set t r).rebuilds u = s.rebuilds u := Function.update_of_ne h _ _

/-- No rebuild is in progress. -/
def Quiet (s : ChannelCache) : Prop := ∀ t, s.rebuilds t = none

end ChannelCache

/-- What happens: HOST sends a packet, which its thread stores before it rebuilds; a JOIN's thread
calls a rebuild; a rebuild makes its next step; or something becomes of the JOINs. -/
inductive CacheEvent
  | hostSync (pkt : Bytes)
  | enter (n : ℕ)
  | copy (t : Thread)
  | look (t : Thread)
  | store (t : Thread)
  | joins (js : List JoinEntry)

section

variable {D : Type} (b : Backend D)

/-- Whether an event can happen. -/
def CacheEvent.enabled : CacheEvent → ChannelCache → Bool
  | .hostSync _, s => (s.rebuilds .host).isNone
  | .enter n, s => (s.rebuilds (.join n)).isNone
  | .copy t, s => match s.rebuilds t with | some .entered => true | _ => false
  | .look t, s => match s.rebuilds t with | some (.copied ..) => true | _ => false
  | .store t, s => match s.rebuilds t with | some (.looked ..) => true | _ => false
  | .joins js, _ => decide (OperatorNumbers js)

/-- What an event does. -/
def CacheEvent.apply : CacheEvent → ChannelCache → ChannelCache
  | .hostSync pkt, s =>
    if pkt.length < BEWE_HDR_SIZE then s
    else
      match HostRoom.rawChSync b pkt with
      -- a damaged packet is dropped
      | none => s
      | some raw =>
        { s.set .host (some .entered) with
          cached_ch_sync := raw, host := some raw, version := s.version + 1 }
  | .enter n, s => s.set (.join n) (some .entered)
  | .copy t, s =>
    if s.cached_ch_sync.length < RAW_LENGTH then s.set t none
    else s.set t (some (.copied s.cached_ch_sync s.version))
  | .look t, s =>
    match s.rebuilds t with
    | some (.copied base_sync version) =>
      let rewritten := HostRoom.rewriteMasks s.joins MAX_CHANNELS_RELAY base_sync
      { s.set t (some (.looked rewritten version s.joins (s.looks + 1))) with
        looks := s.looks + 1, lastSeen := s.joins }
    | _ => s
  | .store t, s =>
    match s.rebuilds t with
    | some (.looked base_sync _ seen _) =>
      { s.set t none with cached_ch_sync := base_sync, storedSeen := seen }
    | _ => s
  | .joins js, s => { s with joins := js }

/-- One step. -/
def CacheStep (s : ChannelCache) (e : CacheEvent) (s' : ChannelCache) : Prop :=
  e.enabled s = true ∧ s' = e.apply b s

/-- The numbers of operators among some JOINs. -/
def numbersOf (joins : List JoinEntry) : List UInt8 :=
  (joins.map JoinEntry.op_index).filter (· ≠ 0)

/-- The condition on a step: a rebuild stores a copy of what HOST has sent last, and the operators
that it looks at have different numbers. -/
def CacheEvent.fresh : CacheEvent → ChannelCache → Bool
  | .store t, s =>
    match s.rebuilds t with
    | some (.looked _ version _ _) => version == s.version
    | _ => true
  | .look _, s => decide (numbersOf s.joins).Nodup
  | _, _ => true

/-- The condition that nobody has looked at the JOINs since a rebuild that stores has. -/
def CacheEvent.ordered : CacheEvent → ChannelCache → Bool
  | .store t, s =>
    match s.rebuilds t with
    | some (.looked _ _ _ turn) => turn == s.looks
    | _ => true
  | _, _ => true

/-- A step that meets the first condition, or both. -/
def FreshStep (s : ChannelCache) (e : CacheEvent) (s' : ChannelCache) : Prop :=
  e.fresh s = true ∧ CacheStep b s e s'
@[inherit_doc FreshStep] def OrderedStep (s : ChannelCache) (e : CacheEvent) (s' : ChannelCache) :
    Prop :=
  e.ordered s = true ∧ FreshStep b s e s'

/-- The cache is what HOST has sent last, and its masks are those of some JOINs. -/
structure Follows (s : ChannelCache) (seen : List JoinEntry) : Prop where
  fields : ∀ raw, s.host = some raw → SameButMasks raw s.cached_ch_sync
  host_bit : ∀ raw, s.host = some raw → ∀ ch < MAX_CHANNELS_RELAY,
    (maskOf ch s.cached_ch_sync).testBit 0 = (maskOf ch raw).testBit 0
  join_bit : s.host.isSome = true → ∀ ch < MAX_CHANNELS_RELAY, ∀ j ∈ seen, j.op_index ≠ 0 →
    j.op_index.toNat ≤ 31 →
    (maskOf ch s.cached_ch_sync).testBit j.op_index.toNat =
      (j.authed && j.alive && j.recv_audio.getD ch true)
  no_bit : s.host.isSome = true → ∀ ch < MAX_CHANNELS_RELAY, ∀ i,
    (maskOf ch s.cached_ch_sync).testBit i = true → i = 0 ∨ ∃ j ∈ seen, j.op_index.toNat = i

end

/-! ## What a run keeps -/

/-- A packet is what HOST has sent last, but for the bits of JOINs. -/
def ChannelCache.Current (s : ChannelCache) (sync : Bytes) : Prop :=
  ∀ raw, s.host = some raw → raw.length = RAW_LENGTH ∧ Agrees raw sync

/-- A packet is that with the bits of some JOINs. -/
def ChannelCache.Masked (s : ChannelCache) (sync : Bytes) (seen : List JoinEntry) : Prop :=
  ∃ base, RAW_LENGTH ≤ base.length ∧ s.Current base ∧ OperatorNumbers seen ∧
    (numbersOf seen).Nodup ∧ sync = HostRoom.rewriteMasks seen MAX_CHANNELS_RELAY base

/-- Copies of what HOST has sent last are current, and so is the cache; who has looked at the JOINs
has rewritten a current copy. -/
structure Kept (s : ChannelCache) : Prop where
  numbers : OperatorNumbers s.joins
  empty : s.host = none → s.cached_ch_sync = []
  cached : s.Current s.cached_ch_sync
  copied : ∀ t base version, s.rebuilds t = some (.copied base version) →
    s.host.isSome = true ∧ version ≤ s.version ∧
      (version = s.version → RAW_LENGTH ≤ base.length ∧ s.Current base)
  looked : ∀ t base version seen turn, s.rebuilds t = some (.looked base version seen turn) →
    s.host.isSome = true ∧ version ≤ s.version ∧ (version = s.version → s.Masked base seen)
  stored : s.rebuilds .host = none → s.host.isSome = true → s.Masked s.cached_ch_sync s.storedSeen

theorem ChannelCache.Masked.current {s : ChannelCache} {sync : Bytes} {seen : List JoinEntry}
    (h : s.Masked sync seen) : s.Current sync := by
  obtain ⟨base, hlen, hbase, hnum, -, hsync⟩ := h
  rw [hsync]
  exact fun raw hraw => ⟨(hbase raw hraw).1, (hbase raw hraw).2.rewriteMasks hlen hnum⟩

theorem kept_start : Kept ChannelCache.start where
  numbers := fun j hj => absurd hj List.not_mem_nil
  empty := fun _ => rfl
  cached := fun raw hraw => absurd hraw (by simp [ChannelCache.start])
  copied := fun t base version h => absurd h (by simp [ChannelCache.start])
  looked := fun t base version seen turn h => absurd h (by simp [ChannelCache.start])
  stored := fun _ h => absurd h (by simp [ChannelCache.start])

theorem Kept.set {s : ChannelCache} (h : Kept s) {t : Thread} {r : Option Rebuild}
    (hcopied : ∀ base version, r = some (.copied base version) → s.host.isSome = true ∧
      version ≤ s.version ∧ (version = s.version → RAW_LENGTH ≤ base.length ∧ s.Current base))
    (hlooked : ∀ base version seen turn, r = some (.looked base version seen turn) →
      s.host.isSome = true ∧ version ≤ s.version ∧ (version = s.version → s.Masked base seen))
    (hend : t = .host → r = none → s.host.isSome = true →
      s.Masked s.cached_ch_sync s.storedSeen) : Kept (s.set t r) where
  numbers := h.numbers
  empty := h.empty
  cached := h.cached
  copied := by
    intro u base version hu
    by_cases hut : u = t
    · subst hut
      rw [ChannelCache.set_rebuilds_self] at hu
      exact hcopied base version hu
    · rw [ChannelCache.set_rebuilds_of_ne s hut] at hu
      exact h.copied u base version hu
  looked := by
    intro u base version seen turn hu
    by_cases hut : u = t
    · subst hut
      rw [ChannelCache.set_rebuilds_self] at hu
      exact hlooked base version seen turn hu
    · rw [ChannelCache.set_rebuilds_of_ne s hut] at hu
      exact h.looked u base version seen turn hu
  stored := by
    intro hhost hsome
    by_cases ht : t = .host
    · subst ht
      rw [ChannelCache.set_rebuilds_self] at hhost
      exact hend rfl hhost hsome
    · rw [ChannelCache.set_rebuilds_of_ne s (Ne.symm ht)] at hhost
      exact h.stored hhost hsome

theorem length_rawChSync {D : Type} {b : Backend D} {pkt raw : Bytes}
    (hlen : ¬pkt.length < BEWE_HDR_SIZE) (h : HostRoom.rawChSync b pkt = some raw) :
    raw.length = RAW_LENGTH := by
  rw [HostRoom.rawChSync] at h
  split_ifs at h with hraw
  · obtain rfl := Option.some.inj h
    rw [payload, List.length_drop] at hraw
    rw [RAW_LENGTH]
    omega
  · split at h
    · next body hbody =>
      split_ifs at h with hsize
      obtain rfl := Option.some.inj h
      have htake : (pkt.take BEWE_HDR_SIZE).length = BEWE_HDR_SIZE := by
        rw [List.length_take]
        omega
      rw [List.length_append, splice_length, htake, hsize, RAW_LENGTH]
      rw [leBytes_length, htake]
      decide
    · cases h

theorem kept_step {D : Type} (b : Backend D) {s s' : ChannelCache} {e : CacheEvent} (h : Kept s)
    (hstep : FreshStep b s e s') : Kept s' := by
  obtain ⟨hfresh, henabled, rfl⟩ := hstep
  cases e with
  | hostSync pkt =>
    simp only [CacheEvent.apply]
    split_ifs with hlen
    · exact h
    split
    · exact h
    · next raw hraw =>
      -- copies from before are not of the last packet any more
      refine ⟨h.numbers, fun hnone => absurd hnone (by simp), ?_, ?_, ?_, ?_⟩
      · intro r hr
        obtain rfl := Option.some.inj hr
        exact ⟨length_rawChSync hlen hraw, Agrees.refl raw⟩
      · intro t base version ht
        refine ⟨rfl, ?_⟩
        by_cases hhost : t = .host
        · subst hhost
          exact absurd ht (by simp [ChannelCache.set])
        · have hold := h.copied t base version
            (by rwa [← ChannelCache.set_rebuilds_of_ne s hhost (some .entered)])
          dsimp only
          exact ⟨by omega, fun heq => absurd heq (by omega)⟩
      · intro t base version seen turn ht
        refine ⟨rfl, ?_⟩
        by_cases hhost : t = .host
        · subst hhost
          exact absurd ht (by simp [ChannelCache.set])
        · have hold := h.looked t base version seen turn
            (by rwa [← ChannelCache.set_rebuilds_of_ne s hhost (some .entered)])
          dsimp only
          exact ⟨by omega, fun heq => absurd heq (by omega)⟩
      · intro hnone
        exact absurd hnone (by simp [ChannelCache.set])
  | enter n =>
    exact h.set (fun _ _ hr => by simp at hr) (fun _ _ _ _ hr => by simp at hr)
      (fun hhost => by simp at hhost)
  | copy t =>
    simp only [CacheEvent.apply]
    split_ifs with hshort
    · refine h.set (fun _ _ hr => by simp at hr) (fun _ _ _ _ hr => by simp at hr) ?_
      intro _ _ hsome
      -- what HOST has sent is not short
      obtain ⟨raw, hraw⟩ := Option.isSome_iff_exists.1 hsome
      have hcur := h.cached raw hraw
      rw [hcur.2.same.length, hcur.1] at hshort
      exact absurd hshort (lt_irrefl _)
    · have hsome : s.host.isSome = true := by
        cases hhost : s.host with
        | none =>
          rw [h.empty hhost] at hshort
          exact absurd (show ([] : Bytes).length < RAW_LENGTH by decide) hshort
        | some raw => rfl
      refine h.set ?_ (fun _ _ _ _ hr => by simp at hr) (fun _ hr => by simp at hr)
      intro base version hr
      obtain ⟨rfl, rfl⟩ : s.cached_ch_sync = base ∧ s.version = version := by simpa using hr
      exact ⟨hsome, le_rfl, fun _ => ⟨not_lt.1 hshort, h.cached⟩⟩
  | look t =>
    simp only [CacheEvent.apply]
    split
    · next base version ht =>
      obtain ⟨hsome, hle, hcur⟩ := h.copied t base version ht
      have hset := h.set (t := t) (r := some (.looked
        (HostRoom.rewriteMasks s.joins MAX_CHANNELS_RELAY base) version s.joins (s.looks + 1)))
        (fun _ _ hr => by simp at hr) (fun base' version' seen turn hr => by
          obtain ⟨rfl, rfl, rfl, rfl⟩ :
              _ ∧ version = version' ∧ s.joins = seen ∧ s.looks + 1 = turn := by simpa using hr
          exact ⟨hsome, hle, fun hv => ⟨base, (hcur hv).1, (hcur hv).2, h.numbers,
            of_decide_eq_true hfresh, rfl⟩⟩) (fun _ hr => by simp at hr)
      exact ⟨hset.numbers, hset.empty, hset.cached, hset.copied, hset.looked, hset.stored⟩
    · exact h
  | store t =>
    simp only [CacheEvent.apply]
    split
    · next base version seen turn ht =>
      obtain ⟨hsome, -, hmasked⟩ := h.looked t base version seen turn ht
      simp only [CacheEvent.fresh, ht, beq_iff_eq] at hfresh
      have hbase : s.Masked base seen := hmasked hfresh
      have hstored : Kept { s with cached_ch_sync := base, storedSeen := seen } := by
        refine ⟨h.numbers, fun hnone => ?_, hbase.current, h.copied, h.looked, fun _ _ => hbase⟩
        rw [hnone] at hsome
        exact Bool.noConfusion hsome
      exact hstored.set (t := t) (r := none) (fun _ _ hr => by simp at hr)
        (fun _ _ _ _ hr => by simp at hr) (fun _ _ _ => hbase)
    · exact h
  | joins js =>
    exact ⟨of_decide_eq_true henabled, h.empty, h.cached, h.copied, h.looked, h.stored⟩

theorem eq_of_numbersOf {joins : List JoinEntry} (h : (numbersOf joins).Nodup) {j k : JoinEntry}
    (hj : j ∈ joins) (hk : k ∈ joins) (hzero : j.op_index ≠ 0) (heq : j.op_index = k.op_index) :
    j = k := by
  rw [numbersOf, List.filter_map] at h
  refine List.inj_on_of_nodup_map h ?_ ?_ heq
  · exact List.mem_filter.2 ⟨hj, by simpa using hzero⟩
  · exact List.mem_filter.2 ⟨hk, by simpa using heq ▸ hzero⟩

theorem Kept.follows {s : ChannelCache} (h : Kept s) (hquiet : s.Quiet) :
    Follows s s.storedSeen where
  fields := fun raw hraw => (h.cached raw hraw).2.same
  host_bit := fun raw hraw => (h.cached raw hraw).2.bit
  join_bit := by
    intro hsome ch hch j hj hzero hle
    obtain ⟨base, hlen, -, hnum, hnodup, hsync⟩ := h.stored (hquiet .host) hsome
    rw [hsync, Bool.eq_iff_iff, testBit_mask hlen hch]
    constructor
    · rintro ⟨-, ⟨hbit, -⟩ | ⟨k, hk, hlive, hrecv, hbit⟩⟩
      · exact absurd (UInt8.toNat_inj.1 hbit) hzero
      · -- the operator whose bit it is
        have hbound := hnum k hk (Bool.and_eq_true_iff.1 hlive).1
        rw [Nat.mod_eq_of_lt (by omega), UInt8.toNat_inj] at hbit
        obtain rfl := eq_of_numbersOf hnodup hj hk hzero hbit.symm
        exact Bool.and_eq_true_iff.2 ⟨hlive, hrecv⟩
    · intro hlistens
      rw [Bool.and_eq_true] at hlistens
      exact ⟨by omega, Or.inr ⟨j, hj, hlistens.1, hlistens.2, Nat.mod_eq_of_lt (by omega)⟩⟩
  no_bit := by
    intro hsome ch hch i hbit
    obtain ⟨base, hlen, -, hnum, -, hsync⟩ := h.stored (hquiet .host) hsome
    rw [hsync, testBit_mask hlen hch] at hbit
    obtain ⟨-, ⟨hi, -⟩ | ⟨k, hk, hlive, -, hi⟩⟩ := hbit
    · exact Or.inl hi
    · have hbound := hnum k hk (Bool.and_eq_true_iff.1 hlive).1
      rw [Nat.mod_eq_of_lt (by omega)] at hi
      exact Or.inr ⟨k, hk, hi⟩

/-! ## The order of the looks -/

/-- The rebuild that looked at the JOINs last is in progress, or the last to have stored. -/
structure InOrder (s : ChannelCache) : Prop where
  turn : ∀ t base version seen turn, s.rebuilds t = some (.looked base version seen turn) →
    turn ≤ s.looks ∧ (turn = s.looks → seen = s.lastSeen)
  last : (∃ t base version, s.rebuilds t = some (.looked base version s.lastSeen s.looks)) ∨
    s.storedSeen = s.lastSeen

theorem InOrder.set {s : ChannelCache} (h : InOrder s) {t : Thread} {r : Option Rebuild}
    (hbefore : ∀ base version seen turn, s.rebuilds t ≠ some (.looked base version seen turn))
    (hafter : ∀ base version seen turn, r ≠ some (.looked base version seen turn)) :
    InOrder (s.set t r) where
  turn := by
    intro u base version seen turn hu
    by_cases hut : u = t
    · subst hut
      rw [ChannelCache.set_rebuilds_self] at hu
      exact absurd hu (hafter _ _ _ _)
    · rw [ChannelCache.set_rebuilds_of_ne s hut] at hu
      exact h.turn u base version seen turn hu
  last := by
    rcases h.last with ⟨u, base, version, hu⟩ | hstored
    · have hut : u ≠ t := by
        rintro rfl
        exact hbefore _ _ _ _ hu
      exact Or.inl ⟨u, base, version, by rw [ChannelCache.set_rebuilds_of_ne s hut]; exact hu⟩
    · exact Or.inr hstored

theorem inOrder_step {D : Type} (b : Backend D) {s s' : ChannelCache} {e : CacheEvent}
    (h : InOrder s) (hstep : OrderedStep b s e s') : InOrder s' := by
  obtain ⟨hordered, -, henabled, rfl⟩ := hstep
  cases e with
  | hostSync pkt =>
    simp only [CacheEvent.enabled, Option.isNone_iff_eq_none] at henabled
    simp only [CacheEvent.apply]
    split_ifs
    · exact h
    split
    · exact h
    · have hset := h.set (t := .host) (r := some .entered) (by simp [henabled]) (by simp)
      exact ⟨hset.turn, hset.last⟩
  | enter n =>
    simp only [CacheEvent.enabled, Option.isNone_iff_eq_none] at henabled
    exact h.set (by simp [henabled]) (by simp)
  | copy t =>
    simp only [CacheEvent.enabled] at henabled
    have hbefore : ∀ base version seen turn,
        s.rebuilds t ≠ some (.looked base version seen turn) := by
      intro base version seen turn ht
      rw [ht] at henabled
      exact Bool.noConfusion henabled
    simp only [CacheEvent.apply]
    split_ifs
    · exact h.set hbefore (by simp)
    · exact h.set hbefore (by simp)
  | look t =>
    simp only [CacheEvent.apply]
    split
    · next base version ht =>
      refine ⟨fun u base' version' seen turn hu => ?_, Or.inl ⟨t, _, version,
        ChannelCache.set_rebuilds_self s t _⟩⟩
      by_cases hut : u = t
      · subst hut
        have hself := hu
        change (s.set u _).rebuilds u = _ at hself
        rw [ChannelCache.set_rebuilds_self] at hself
        obtain ⟨-, -, rfl, rfl⟩ : _ ∧ _ ∧ s.joins = seen ∧ s.looks + 1 = turn := by
          simpa using hself
        exact ⟨le_rfl, fun _ => rfl⟩
      · have hother := hu
        change (s.set t _).rebuilds u = _ at hother
        rw [ChannelCache.set_rebuilds_of_ne s hut] at hother
        have hle := (h.turn u base' version' seen turn hother).1
        dsimp only
        exact ⟨by omega, fun heq => absurd heq (by omega)⟩
    · exact h
  | store t =>
    simp only [CacheEvent.apply]
    split
    · next base version seen turn ht =>
      simp only [CacheEvent.ordered, ht, beq_iff_eq] at hordered
      have hseen := (h.turn t base version seen turn ht).2 hordered
      refine ⟨fun u base' version' seen' turn' hu => ?_, Or.inr hseen⟩
      by_cases hut : u = t
      · subst hut
        exact absurd hu (by simp [ChannelCache.set])
      · have hother := hu
        change (s.set t _).rebuilds u = _ at hother
        rw [ChannelCache.set_rebuilds_of_ne s hut] at hother
        exact h.turn u base' version' seen' turn' hother
    · exact h
  | joins js => exact ⟨h.turn, h.last⟩

/-! ## Runs -/

/-- In every run in which only copies of HOST's last packet are stored, and operators that are
looked at have different numbers, the cache follows HOST in every state in which no rebuild is in
progress, with the JOINs that the last rebuild to store has seen. If besides nobody looks at the
JOINs between another's look and its store, these are those that were seen last. -/
theorem follows_of_run {D : Type} (b : Backend D) (es : List CacheEvent) (s : ChannelCache)
    (h : Run (FreshStep b) ChannelCache.start es s) (hquiet : s.Quiet) :
    Follows s s.storedSeen ∧
      (Run (OrderedStep b) ChannelCache.start es s → s.storedSeen = s.lastSeen) := by
  refine ⟨(h.invariant (fun _ _ _ hstep hk => kept_step b hk hstep) kept_start).follows hquiet,
    fun hordered => ?_⟩
  have hstart : InOrder ChannelCache.start :=
    ⟨fun _ _ _ _ _ ht => absurd ht (by simp [ChannelCache.start]), Or.inr rfl⟩
  have hlast := (hordered.invariant (fun _ _ _ hstep hi => inOrder_step b hi hstep) hstart).last
  rcases hlast with ⟨t, base, version, ht⟩ | hstored
  · rw [hquiet t] at ht
    cases ht
  · exact hstored

/-- The thread whose rebuild an event changes. -/
def CacheEvent.thread : CacheEvent → Option Thread
  | .hostSync _ => some .host
  | .enter n => some (.join n)
  | .copy t | .look t | .store t => some t
  | .joins _ => none

theorem apply_rebuilds_of_ne {D : Type} (b : Backend D) (s : ChannelCache) {e : CacheEvent}
    {t : Thread} (h : e.thread ≠ some t) : (e.apply b s).rebuilds t = s.rebuilds t := by
  have hset : ∀ u r, some u ≠ some t → (s.set u r).rebuilds t = s.rebuilds t := fun u r hu =>
    ChannelCache.set_rebuilds_of_ne s (fun htu => hu (congrArg some htu.symm)) r
  cases e with
  | hostSync pkt =>
    simp only [CacheEvent.apply]
    split_ifs
    · rfl
    · split
      · rfl
      · exact hset _ _ h
  | enter n => exact hset _ _ h
  | copy u =>
    simp only [CacheEvent.apply]
    split_ifs <;> exact hset _ _ h
  | look u =>
    simp only [CacheEvent.apply]
    split
    · exact hset _ _ h
    · rfl
  | store u =>
    simp only [CacheEvent.apply]
    split
    · exact hset _ _ h
    · rfl
  | joins js => rfl

/-- What a list of events makes of the cache. -/
def ChannelCache.after (es : List CacheEvent) : ChannelCache :=
  es.foldl (fun s e => e.apply nothingStored s) ChannelCache.start

theorem quiet_after {es : List CacheEvent}
    (hthreads : ∀ e ∈ es, e.thread = none ∨ e.thread = some .host ∨ e.thread = some (.join 0))
    (hhost : ((ChannelCache.after es).rebuilds .host).isNone = true)
    (hjoin : ((ChannelCache.after es).rebuilds (.join 0)).isNone = true) :
    (ChannelCache.after es).Quiet := by
  intro t
  by_cases hother : t ≠ .host ∧ t ≠ .join 0
  · have hfold : ∀ (es : List CacheEvent) (s : ChannelCache), (∀ e ∈ es, e.thread ≠ some t) →
        (es.foldl (fun s e => e.apply nothingStored s) s).rebuilds t = s.rebuilds t := by
      intro es
      induction es with
      | nil => exact fun _ _ => rfl
      | cons e es ih =>
        intro s hes
        rw [List.foldl_cons, ih _ fun f hf => hes f (List.mem_cons_of_mem _ hf),
          apply_rebuilds_of_ne nothingStored s (hes e List.mem_cons_self)]
    refine hfold es _ fun e he heq => ?_
    rcases hthreads e he with h | h | h
    · exact Option.some_ne_none t (heq.symm.trans h)
    · exact hother.1 (Option.some.inj (heq.symm.trans h))
    · exact hother.2 (Option.some.inj (heq.symm.trans h))
  · rcases not_and_or.1 hother with ht | ht
    · rw [not_not.1 ht]
      exact Option.isNone_iff_eq_none.1 hhost
    · rw [not_not.1 ht]
      exact Option.isNone_iff_eq_none.1 hjoin

/-- A raw CHANNEL_SYNC of equal bytes. -/
def evenSync (c : UInt8) : Bytes :=
  makeBewePacket BEWE_TYPE_CH_SYNC (List.replicate HostRoom.CH_SYNC_RAW_BODY c)

/-- An operator who listens to every channel. -/
def listener : JoinEntry := { HostRoom.newEntry 0 1 with authed := true, op_index := 3 }

/-- HOST's rebuild and a JOIN's, both of HOST's first packet. -/
def together : List CacheEvent :=
  [.joins [listener], .hostSync (evenSync 1), .copy .host, .enter 0, .copy (.join 0), .look .host,
    .store .host, .look (.join 0), .store (.join 0)]

theorem follows_together :
    Follows (ChannelCache.after together) (ChannelCache.after together).storedSeen ∧
      (Run (OrderedStep nothingStored) ChannelCache.start together (ChannelCache.after together) →
        (ChannelCache.after together).storedSeen = (ChannelCache.after together).lastSeen) :=
  follows_of_run nothingStored together _
    (run_of_follows (fun e s => e.fresh s && e.enabled s) (fun e s h => by
      rw [Bool.and_eq_true] at h
      exact ⟨h.1, h.2, rfl⟩) together _ (by decide +kernel))
    (quiet_after (by decide) (by decide +kernel) (by decide +kernel))

/-- A JOIN's rebuild copies HOST's first packet, and stores its copy when HOST's second one has been
stored and rebuilt. -/
def overtaken : List CacheEvent :=
  [.hostSync (evenSync 1), .copy .host, .enter 0, .copy (.join 0), .look .host, .store .host,
    .hostSync (evenSync 0), .copy .host, .look .host, .store .host, .look (.join 0),
    .store (.join 0)]

/-- The second packet is lost: the first entry begins with a byte of the first one. -/
theorem not_follows_overtaken :
    ¬∀ (es : List CacheEvent) (s : ChannelCache),
      Run (CacheStep nothingStored) ChannelCache.start es s → s.Quiet → Follows s s.storedSeen := by
  intro hclaim
  have hrun : Run (CacheStep nothingStored) ChannelCache.start overtaken
      (ChannelCache.after overtaken) :=
    run_of_follows CacheEvent.enabled (fun e s h => ⟨h, rfl⟩) overtaken _ (by decide +kernel)
  have hquiet : (ChannelCache.after overtaken).Quiet :=
    quiet_after (by decide) (by decide +kernel) (by decide +kernel)
  have hfields := (hclaim overtaken _ hrun hquiet).fields (evenSync 0)
    (by decide +kernel)
  have hbyte := hfields.get BEWE_HDR_SIZE (by
    rintro ⟨ch, -, hle, -⟩
    simp only [maskOffset, HostRoom.CH_SYNC_MASK_OFFSET] at hle
    omega)
  exact absurd hbyte (by decide +kernel)

end Bewe.Relay
