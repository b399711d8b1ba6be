import Bewe.Df.Config
import Bewe.Lib.Run

/-!
# The measuring loop

`Engine::Impl::loop`: the thread that reads the frames of the DAQ and, when a request has been
submitted, adds up the cross spectra of some of them (`XSpec`) and solves for a bearing. One event is
one turn of the loop, with what it gets from outside: the frame, the request that `req_pending`
yields, the configuration that is copied, whether a cancellation is pending, and the outcome of what
the model leaves open (allocation, manifold, estimate). Of a frame it has the header, from which the
size of the payload follows; of what `add_frame` does with the payload, the places that it reads.

`oneSituation_iff` says when all frames of a measurement come from the antenna situation that it was
prepared for.
-/

namespace Bewe.Df

/-! ## Frames -/

/-- `IqHeader`, as far as the loop reads it. -/
structure IqHeader where
  frame_type : UInt32
  active_ant_chs : UInt32
  rf_center_freq : UInt64
  sampling_freq : UInt64
  cpi_length : UInt32
  adc_overdrive_flags : UInt32
  delay_sync_flag : UInt32
  iq_sync_flag : UInt32
  noise_source_state : UInt32
  deriving DecidableEq

/-- `FRAME_DATA`. -/
def FRAME_DATA : UInt32 := 0

/-- `payload_bytes`. -/
def payloadBytes (h : IqHeader) : ℕ := h.cpi_length.toNat * h.active_ant_chs.toNat * 8 % 2 ^ 64

/-- `usable_for_df`. -/
def usableForDf (h : IqHeader) : Bool :=
  h.frame_type == FRAME_DATA && h.delay_sync_flag == 1 && h.iq_sync_flag == 1 &&
    h.noise_source_state == 0 && decide (0 < h.cpi_length) && decide (2 ≤ h.active_ant_chs)

/-- A frame that `next_frame` has read. -/
structure Frame where
  hdr : IqHeader
  stale : Bool

/-- Whether there is a payload. -/
def Frame.iq (f : Frame) : Bool := decide (0 < payloadBytes f.hdr)

/-- The complex numbers of the payload. -/
def Frame.payload (f : Frame) : ℕ := payloadBytes f.hdr / 8

/-- A `uint32_t` as an `int`. -/
def asInt (u : UInt32) : ℤ := if u.toNat < 2 ^ 31 then u.toNat else (u.toNat : ℤ) - 2 ^ 32

/-! ## Requests and results -/

/-- `Status`. -/
inductive Status
  | ok
  | noSignal
  | linkDown
  | notCalibrated
  | bandOutOfSpan
  | dcOverlap
  | tooFewChannels
  | arrayMismatch
  | timeout
  | badRequest
  | cancelled
  | overdrive
  deriving DecidableEq, Repr

/-- `Request`. -/
structure Request (D : Type) where
  center_hz : D
  bandwidth_hz : D
  frames : ℤ
  algo : Algo
  signal_dim : ℤ
  seq : ℕ
  ui_tag : ℤ
  ui_dnum : ℤ
  use_backlog : Bool

/-- What a `Result` says of its request, and its status. -/
structure Result where
  seq : ℕ
  ui_tag : ℤ
  ui_dnum : ℤ
  status : Status
  deriving DecidableEq

variable {D : Type}

/-- The result of a request. -/
def Request.result (q : Request D) (status : Status) : Result :=
  { seq := q.seq, ui_tag := q.ui_tag, ui_dnum := q.ui_dnum, status }

/-! ## Cross spectra -/

/-- `XSpec::Params`. -/
structure Params (D : Type) where
  ch_center_hz : D
  ch_bw_hz : D
  daq_center_hz : D
  daq_fs_hz : D
  elements : ℤ
  dc_guard_hz : D
  target_looks : ℤ
  fft_size : ℤ

/-- `XSpec`, but for the sums. `plan_` says that there is a plan, with its buffers. -/
structure XSpec where
  m_ : ℕ
  k_ : ℕ
  plan_ : Bool
  bins_ : List ℕ
  seg_needed_ : ℕ
  frames_ : ℕ
  segs_done_ : ℕ

/-- The doubling of `k` until the channel has eight bins, from 256 on twelve times at most. -/
def widen (A : Doubles D) (p : Params D) : ℕ → ℕ → ℕ
  | 0, k => k
  | n + 1, k =>
    if decide (k < 2 ^ 20) && A.lt (A.div (A.mul p.ch_bw_hz (A.lit k)) p.daq_fs_hz) (A.lit 8) then
      widen A p n (2 * k)
    else k

/-- The bins of a channel from `lo` to `hi`. -/
def selectBins (A : Doubles D) (p : Params D) (lo hi half : D) (k : ℕ) : List ℕ :=
  let df_hz := A.div p.daq_fs_hz (A.lit k)
  (List.range k).filter fun kk =>
    let fb := A.mul (A.lit (if kk < k / 2 then (kk : ℚ) else (kk : ℚ) - k)) df_hz
    !(A.lt fb lo || A.lt hi fb) && !A.le (A.abs fb) p.dc_guard_hz && !A.lt half (A.abs fb)

/-- `XSpec::prepare`: what is prepared, and why not. -/
def XSpec.prepare (A : Doubles D) (p : Params D) (alloc : Bool) (x : XSpec) :
    XSpec × Option Status :=
  if p.elements < 2 ∨ kMaxElements < p.elements then (x, some .tooFewChannels)
  else if A.le p.ch_bw_hz (A.lit 0) || A.le p.daq_fs_hz (A.lit 0) then (x, some .badRequest)
  else
    let half := A.mul (A.lit 0.45) p.daq_fs_hz
    let off := A.sub p.ch_center_hz p.daq_center_hz
    let lo := A.sub off (A.mul (A.lit 0.5) p.ch_bw_hz)
    let hi := A.add off (A.mul (A.lit 0.5) p.ch_bw_hz)
    if A.lt hi (A.sub (A.lit 0) half) || A.lt half lo then (x, some .bandOutOfSpan)
    else
      let k := widen A p 12 (max 256 p.fft_size).toNat
      let m := p.elements.toNat
      let plan := if k ≠ x.k_ ∨ m ≠ x.m_ ∨ x.plan_ = false then alloc else true
      let bins := selectBins A p lo hi half k
      if plan = false then ({ x with m_ := m, k_ := k, plan_ := false }, some .badRequest)
      else if bins.isEmpty then
        ({ x with m_ := m, k_ := k, plan_ := true, bins_ := bins },
          some (if A.le (A.abs off) p.dc_guard_hz then .dcOverlap else .bandOutOfSpan))
      else
        let needed := A.ceil (A.div (A.mul (A.lit p.target_looks) (A.lit 1.5)) (A.lit bins.length))
        ({ m_ := m, k_ := k, plan_ := true, bins_ := bins, seg_needed_ := (max 1 needed).toNat,
           frames_ := 0, segs_done_ := 0 }, none)

/-- `seg_use`. -/
def XSpec.segUse (x : XSpec) (samples_per_ch : ℕ) : ℕ := min (samples_per_ch / x.k_) x.seg_needed_

/-- Whether `add_frame` adds a frame. -/
def XSpec.takes (x : XSpec) (samples_per_ch : ℕ) : Bool :=
  x.plan_ && !x.bins_.isEmpty && decide (2 ≤ x.m_) && decide (x.k_ ≤ samples_per_ch) &&
    decide (0 < x.segUse samples_per_ch)

/-- The places in the payload that `add_frame` reads: the samples of the segments, which are spread
over the frame and begin where its turn is, of each channel. -/
def XSpec.reads (x : XSpec) (samples_per_ch : ℕ) : List ℕ :=
  let seg_use := x.segUse samples_per_ch
  let stride := samples_per_ch / x.k_ / seg_use
  let rot := if 1 < stride then x.frames_ % stride else 0
  (List.range seg_use).flatMap fun s =>
    (List.range x.m_).flatMap fun m =>
      (List.range x.k_).map fun n => m * samples_per_ch + (s * stride + rot) * x.k_ + n

/-- `XSpec::add_frame`. -/
def XSpec.addFrame (x : XSpec) (samples_per_ch : ℕ) : XSpec :=
  { x with frames_ := x.frames_ + 1, segs_done_ := x.segs_done_ + x.segUse samples_per_ch }

/-! ## The loop -/

/-- `HeldFrame`. -/
structure HeldFrame where
  channels : UInt32
  samples_per_ch : UInt32
  overdrive : UInt32
  rf_center_hz : UInt64
  sampling_hz : UInt64
  usable : Bool

/-- `kHeldMax`. -/
def kHeldMax : ℕ := 2

/-- What is known of a frame that was added: its antenna situation, the size of its payload and the
places that were read, and the frame for which the measurement was prepared. -/
structure Added where
  rf_center_freq : UInt64
  sampling_freq : UInt64
  active_ant_chs : UInt32
  payload : ℕ
  reads : List ℕ
  prepared : IqHeader

/-- The state of the loop. `prepared` is the header of the frame with which the last request was
picked up, `added` has the frames that were added and `results` what was published. -/
structure EngineLoop (D : Type) where
  connected : Bool
  measuring : Bool
  cur : Request D
  got : ℤ
  discarded : ℤ
  budget : ℤ
  od_mask : UInt32
  held : List HeldFrame
  hold_on : Bool
  xspec : XSpec
  prepared : IqHeader
  added : List Added
  results : List Result

/-- The loop when it begins. -/
def EngineLoop.start (A : Doubles D) : EngineLoop D where
  connected := false
  measuring := false
  cur := { center_hz := A.lit 0, bandwidth_hz := A.lit 0, frames := 3, algo := .music,
           signal_dim := 1, seq := 0, ui_tag := -1, ui_dnum := 0, use_backlog := false }
  got := 0
  discarded := 0
  budget := 0
  od_mask := 0
  held := []
  hold_on := false
  xspec := { m_ := 0, k_ := 0, plan_ := false, bins_ := [], seg_needed_ := 0, frames_ := 0,
             segs_done_ := 0 }
  prepared := ⟨0, 0, 0, 0, 0, 0, 0, 0, 0⟩
  added := []
  results := []

/-- A turn of the loop with a frame. `request` is what is pending where the loop looks for one, and
`hold_expired` that no request used the held frames for a minute; `alloc`, `manifold` and `accepted`
say whether memory was allocated, the manifold is valid, and the estimate was accepted. -/
structure Turn (D : Type) where
  frame : Frame
  hold_expired : Bool
  request : Option (Request D)
  cfg : Config D
  alloc : Bool
  manifold : Bool
  cancel : Bool
  accepted : Bool

/-- `fail` or `publish`, for the request at hand; a measurement is over with it. -/
def EngineLoop.publish (s : EngineLoop D) (status : Status) : EngineLoop D :=
  { s with measuring := false, results := s.results ++ [s.cur.result status] }

/-- The frame is kept for later, for requests that look back. -/
def keepFrame (t : Turn D) (s : EngineLoop D) : EngineLoop D :=
  let s := if s.hold_on && t.hold_expired then { s with hold_on := false, held := [] } else s
  let h := t.frame.hdr
  if s.hold_on && t.frame.iq && decide (0 < h.active_ant_chs) && decide (0 < h.cpi_length) then
    let held := if kHeldMax ≤ s.held.length then s.held.tail else s.held
    { s with
      held := held ++
        [{ channels := h.active_ant_chs
           samples_per_ch := h.cpi_length
           overdrive := h.adc_overdrive_flags
           rf_center_hz := h.rf_center_freq
           sampling_hz := h.sampling_freq
           usable := usableForDf h && !t.frame.stale && h.frame_type == FRAME_DATA }] }
  else s

/-- A frame is offered to the cross spectra, and counts if it is added. -/
def offer (s : EngineLoop D) (rf fs : UInt64) (channels samples_per_ch : UInt32) (payload : ℕ) :
    EngineLoop D :=
  if s.xspec.takes samples_per_ch.toNat then
    { s with
      got := s.got + 1
      xspec := s.xspec.addFrame samples_per_ch.toNat
      added := s.added ++
        [{ rf_center_freq := rf
           sampling_freq := fs
           active_ant_chs := channels
           payload := payload
           reads := s.xspec.reads samples_per_ch.toNat
           prepared := s.prepared }] }
  else s

/-- A held frame is added if there is to be another one and it is of the frame at hand. -/
def addHeld (h : IqHeader) (s : EngineLoop D) (hf : HeldFrame) : EngineLoop D :=
  if s.cur.frames ≤ s.got then s
  else if hf.usable = false then { s with discarded := s.discarded + 1 }
  else if hf.rf_center_hz ≠ h.rf_center_freq ∨ hf.sampling_hz ≠ h.sampling_freq ∨
      hf.channels ≠ h.active_ant_chs then { s with discarded := s.discarded + 1 }
  else
    offer { s with od_mask := s.od_mask ||| hf.overdrive } hf.rf_center_hz hf.sampling_hz hf.channels
      hf.samples_per_ch (hf.channels.toNat * hf.samples_per_ch.toNat)

/-- The request that looks back takes the held frames, or has frames held from now on. -/
def addBacklog (h : IqHeader) (s : EngineLoop D) : EngineLoop D :=
  if s.cur.use_backlog then
    if s.hold_on then s.held.foldl (addHeld h) s else { s with hold_on := true }
  else s

/-- `xp`. -/
def paramsOf (A : Doubles D) (q : Request D) (h : IqHeader) (c : Config D) : Params D where
  ch_center_hz := q.center_hz
  ch_bw_hz := q.bandwidth_hz
  daq_center_hz := A.lit h.rf_center_freq.toNat
  daq_fs_hz := A.lit h.sampling_freq.toNat
  elements := asInt h.active_ant_chs
  dc_guard_hz := c.dc_guard_hz
  target_looks := c.target_looks
  fft_size := c.fft_size

/-- A request is picked up: the cross spectra are prepared for the frame at hand, or it fails. -/
def pickUp (A : Doubles D) (t : Turn D) (q : Request D) (s : EngineLoop D) : EngineLoop D :=
  let h := t.frame.hdr
  let s := { s with cur := q }
  if A.le q.bandwidth_hz (A.lit 0) || A.le q.center_hz (A.lit 0) then s.publish .badRequest
  else if h.active_ant_chs < 3 then s.publish .tooFewChannels
  else
    let c := t.cfg.adjust A (asInt h.active_ant_chs)
    match s.xspec.prepare A (paramsOf A q h c) t.alloc with
    | (xspec, some why) => { s with xspec := xspec }.publish why
    | (xspec, none) =>
      if t.manifold = false then { s with xspec := xspec }.publish .badRequest
      else
        addBacklog h
          { s with
            xspec := xspec
            prepared := h
            measuring := true
            got := 0
            discarded := 0
            od_mask := 0
            budget := max c.max_frames q.frames + 8 }

/-- The solution, with the frames that there are. -/
def solve (t : Turn D) (s : EngineLoop D) : EngineLoop D :=
  if s.got = 0 then s.publish .timeout
  else if s.xspec.m_ < 2 ∨ s.xspec.segs_done_ = 0 then s.publish .timeout
  else s.publish (if t.accepted then .ok else .noSignal)

/-- The frame at hand is added, unless enough were or it is not usable. -/
def measure (t : Turn D) (s : EngineLoop D) : EngineLoop D :=
  let h := t.frame.hdr
  if t.cancel then s.publish .cancelled
  else if s.cur.frames ≤ s.got then solve t s
  else
    let s := { s with budget := s.budget - 1 }
    if !usableForDf h || t.frame.stale || !t.frame.iq then
      let s := { s with discarded := s.discarded + 1 }
      if s.budget ≤ 0 then
        s.publish (if h.delay_sync_flag != 0 && h.iq_sync_flag != 0 then .timeout else .notCalibrated)
      else s
    else
      let s := offer { s with od_mask := s.od_mask ||| h.adc_overdrive_flags } h.rf_center_freq
        h.sampling_freq h.active_ant_chs h.cpi_length t.frame.payload
      if s.got < s.cur.frames ∧ 0 < s.budget then s else solve t s

/-- A turn with a frame. -/
def turn (A : Doubles D) (t : Turn D) (s : EngineLoop D) : EngineLoop D :=
  let s := keepFrame t s
  if s.measuring then measure t s
  else
    match t.request with
    | none => s
    | some q =>
      let s := pickUp A t q s
      if s.measuring then measure t s else s

/-- What happens to the loop: a turn with a frame; a frame that cannot be read, upon which it
disconnects; and a turn without a connection, which fails a measurement and tries to connect. -/
inductive EngineEvent (D : Type)
  | turn (t : Turn D)
  | lost
  | connect (ok : Bool)

/-- One event. -/
def EngineLoop.next (A : Doubles D) (s : EngineLoop D) : EngineEvent D → EngineLoop D
  | .turn t => if s.connected then Df.turn A t s else s
  | .lost => { s with connected := false }
  | .connect ok =>
    if s.connected then s
    else
      let s := if s.measuring then s.publish .linkDown else s
      { s with connected := ok }

/-! ## The cross spectra -/

/-- Cross spectra that are ready for frames of `m` channels. -/
structure XSpec.Ready (x : XSpec) (m : ℕ) : Prop where
  plan : x.plan_ = true
  bins : x.bins_ ≠ []
  channels : x.m_ = m
  least : 2 ≤ m
  most : m ≤ kMaxElements
  size : 0 < x.k_
  segments : 0 < x.seg_needed_

theorem le_widen (A : Doubles D) (p : Params D) (n k : ℕ) : k ≤ widen A p n k := by
  induction n generalizing k with
  | zero => exact Nat.le_refl k
  | succ n ih =>
    unfold widen
    split_ifs
    · exact (Nat.le_mul_of_pos_left k (by decide)).trans (ih (2 * k))
    · exact Nat.le_refl k

private theorem of_ite_some {c : Prop} [Decidable c] {x x' : XSpec} {why : Status}
    {e : XSpec × Option Status} (h : (if c then (x, some why) else e) = (x', none)) :
    ¬c ∧ e = (x', none) := by
  split_ifs at h with hc
  · cases h
  · exact ⟨hc, h⟩

theorem XSpec.ready_of_prepare {A : Doubles D} {p : Params D} {alloc : Bool} {x x' : XSpec}
    (h : x.prepare A p alloc = (x', none)) : x'.Ready p.elements.toNat := by
  have hk := le_widen A p 12 (max 256 p.fft_size).toNat
  have hmax : kMaxElements = 8 := rfl
  unfold XSpec.prepare at h
  obtain ⟨helements, h⟩ := of_ite_some h
  obtain ⟨-, h⟩ := of_ite_some h
  obtain ⟨-, h⟩ := of_ite_some h
  obtain ⟨-, h⟩ := of_ite_some h
  obtain ⟨hbins, h⟩ := of_ite_some h
  obtain ⟨rfl, -⟩ := Prod.mk.inj h
  exact {
    plan := rfl
    bins := fun hnil => hbins (List.isEmpty_iff.2 hnil)
    channels := rfl
    least := by omega
    most := by omega
    size := by
      show 0 < widen A p 12 (max 256 p.fft_size).toNat
      omega
    segments := by
      show 0 < (max (1 : ℤ) _).toNat
      omega }

theorem XSpec.Ready.takes_iff {x : XSpec} {m : ℕ} (h : x.Ready m) (samples_per_ch : ℕ) :
    x.takes samples_per_ch = true ↔ x.k_ ≤ samples_per_ch := by
  have hsegs : x.k_ ≤ samples_per_ch → 0 < x.segUse samples_per_ch := fun hle =>
    Nat.lt_min.2 ⟨Nat.div_pos hle h.size, h.segments⟩
  have hbins : x.bins_.isEmpty = false := by
    cases hb : x.bins_ with
    | nil => exact absurd hb h.bins
    | cons => rfl
  simp only [XSpec.takes, h.plan, hbins, h.channels, Bool.true_and, Bool.not_false,
    Bool.and_eq_true, decide_eq_true_eq]
  exact ⟨fun hall => hall.1.2, fun hle => ⟨⟨h.least, hle⟩, hsegs hle⟩⟩

theorem XSpec.Ready.addFrame {x : XSpec} {m : ℕ} (h : x.Ready m) (samples_per_ch : ℕ) :
    (x.addFrame samples_per_ch).Ready m :=
  ⟨h.plan, h.bins, h.channels, h.least, h.most, h.size, h.segments⟩

theorem XSpec.reads_lt {x : XSpec} {samples_per_ch i : ℕ} (hi : i ∈ x.reads samples_per_ch) :
    i < x.m_ * samples_per_ch := by
  unfold XSpec.reads at hi
  simp only [List.mem_flatMap, List.mem_map, List.mem_range] at hi
  obtain ⟨s, hs, m, hm, n, hn, rfl⟩ := hi
  generalize hrot : (if 1 < samples_per_ch / x.k_ / x.segUse samples_per_ch then
    x.frames_ % (samples_per_ch / x.k_ / x.segUse samples_per_ch) else 0) = rot
  generalize hstride : samples_per_ch / x.k_ / x.segUse samples_per_ch = stride at *
  have huse : x.segUse samples_per_ch ≤ samples_per_ch / x.k_ := Nat.min_le_left _ _
  have hpos : 0 < stride := by
    rw [← hstride]
    exact Nat.div_pos huse (Nat.zero_lt_of_lt hs)
  have hrot_lt : rot < stride := by
    rw [← hrot]
    split_ifs
    · exact Nat.mod_lt _ hpos
    · exact hpos
  -- the segment is one of those that there are
  have hsegment : s * stride + rot + 1 ≤ samples_per_ch / x.k_ :=
    calc s * stride + rot + 1 ≤ s * stride + stride := by omega
      _ = (s + 1) * stride := (Nat.succ_mul s stride).symm
      _ ≤ x.segUse samples_per_ch * stride := Nat.mul_le_mul_right stride hs
      _ ≤ samples_per_ch / x.k_ := by
          rw [← hstride]
          exact Nat.mul_div_le _ _
  have hsample : (s * stride + rot) * x.k_ + n < samples_per_ch :=
    calc (s * stride + rot) * x.k_ + n < (s * stride + rot) * x.k_ + x.k_ := by omega
      _ = (s * stride + rot + 1) * x.k_ := (Nat.succ_mul _ _).symm
      _ ≤ samples_per_ch / x.k_ * x.k_ := Nat.mul_le_mul_right _ hsegment
      _ ≤ samples_per_ch := Nat.div_mul_le_self _ _
  calc m * samples_per_ch + (s * stride + rot) * x.k_ + n < m * samples_per_ch + samples_per_ch := by
        omega
    _ = (m + 1) * samples_per_ch := (Nat.succ_mul _ _).symm
    _ ≤ x.m_ * samples_per_ch := Nat.mul_le_mul_right _ hm

/-! ## One antenna situation -/

/-- Two headers of one antenna situation. -/
def SameSituation (h p : IqHeader) : Prop :=
  h.rf_center_freq = p.rf_center_freq ∧ h.sampling_freq = p.sampling_freq ∧
    h.active_ant_chs = p.active_ant_chs

/-- A frame that was added is of the situation for which the measurement was prepared, and only its
payload was read. -/
structure OfSituation (a : Added) : Prop where
  rf_center_freq : a.rf_center_freq = a.prepared.rf_center_freq
  sampling_freq : a.sampling_freq = a.prepared.sampling_freq
  active_ant_chs : a.active_ant_chs = a.prepared.active_ant_chs
  reads : ∀ i ∈ a.reads, i < a.payload

/-- Every frame that was added is. -/
def OneSituation (s : EngineLoop D) : Prop := ∀ a ∈ s.added, OfSituation a

/-- While the loop measures, the cross spectra are ready for the channels of the frame for which they
were prepared. -/
def Prepared (s : EngineLoop D) : Prop :=
  s.measuring = true → s.xspec.Ready s.prepared.active_ant_chs.toNat

variable {A : Doubles D} {s : EngineLoop D} {t : Turn D}

theorem payload_of_ready {x : XSpec} {h : IqHeader} (hready : x.Ready h.active_ant_chs.toNat) :
    payloadBytes h / 8 = x.m_ * h.cpi_length.toNat := by
  have hchannels := hready.channels
  have hmost : h.active_ant_chs.toNat ≤ 8 := hready.most
  have hcpi : h.cpi_length.toNat < 2 ^ 32 := h.cpi_length.toNat_lt
  have hprod : h.cpi_length.toNat * h.active_ant_chs.toNat ≤ 2 ^ 32 * 8 :=
    Nat.mul_le_mul (by omega) hmost
  rw [payloadBytes, Nat.mod_eq_of_lt (by omega), Nat.mul_div_cancel _ (by decide), hchannels,
    Nat.mul_comm]

theorem offer_added (hready : s.xspec.Ready s.prepared.active_ant_chs.toNat) (rf fs : UInt64)
    (channels samples_per_ch : UInt32) (payload : ℕ) :
    (offer s rf fs channels samples_per_ch payload).added =
      if s.xspec.k_ ≤ samples_per_ch.toNat then
        s.added ++ [⟨rf, fs, channels, payload, s.xspec.reads samples_per_ch.toNat, s.prepared⟩]
      else s.added := by
  unfold offer
  by_cases htakes : s.xspec.takes samples_per_ch.toNat = true
  · rw [if_pos htakes, if_pos ((hready.takes_iff _).1 htakes)]
  · rw [if_neg htakes, if_neg (mt (hready.takes_iff _).2 htakes)]

theorem offer_rest (s : EngineLoop D) (rf fs : UInt64) (channels samples_per_ch : UInt32)
    (payload : ℕ) :
    let s' := offer s rf fs channels samples_per_ch payload
    s'.measuring = s.measuring ∧ s'.prepared = s.prepared ∧ s'.cur = s.cur ∧
      ∀ m, s.xspec.Ready m → s'.xspec.Ready m := by
  unfold offer
  split_ifs
  · exact ⟨rfl, rfl, rfl, fun m h => h.addFrame _⟩
  · exact ⟨rfl, rfl, rfl, fun m h => h⟩

/-- A measurement for the frame `h`, all of whose frames are of its situation. -/
structure Measures (h : IqHeader) (s : EngineLoop D) : Prop where
  prepared : s.prepared = h
  ready : s.xspec.Ready h.active_ant_chs.toNat
  one : OneSituation s

theorem Measures.addHeld {h : IqHeader} (hs : Measures h s) (hf : HeldFrame) :
    Measures h (addHeld h s hf) := by
  unfold Df.addHeld
  split_ifs with henough husable hother
  · exact hs
  · exact ⟨hs.prepared, hs.ready, hs.one⟩
  · exact ⟨hs.prepared, hs.ready, hs.one⟩
  · have hsame : hf.rf_center_hz = h.rf_center_freq ∧ hf.sampling_hz = h.sampling_freq ∧
        hf.channels = h.active_ant_chs := by
      simpa only [not_or, ne_eq, not_not] using hother
    obtain ⟨hrf, hfs, hch⟩ := hsame
    obtain ⟨-, hprepared, -, hready⟩ := offer_rest { s with od_mask := s.od_mask ||| hf.overdrive }
      hf.rf_center_hz hf.sampling_hz hf.channels hf.samples_per_ch
      (hf.channels.toNat * hf.samples_per_ch.toNat)
    refine ⟨hprepared.trans hs.prepared, hready _ hs.ready, ?_⟩
    have hr : s.xspec.Ready s.prepared.active_ant_chs.toNat := hs.prepared.symm ▸ hs.ready
    unfold OneSituation
    rw [offer_added (s := { s with od_mask := s.od_mask ||| hf.overdrive }) hr]
    split_ifs
    · intro a ha
      rcases List.mem_append.1 ha with ha | ha
      · exact hs.one a ha
      · rw [List.mem_singleton.1 ha]
        refine ⟨?_, ?_, ?_, fun i hi => ?_⟩
        · exact hrf.trans (congrArg _ hs.prepared.symm)
        · exact hfs.trans (congrArg _ hs.prepared.symm)
        · exact hch.trans (congrArg _ hs.prepared.symm)
        · have hlt := XSpec.reads_lt hi
          show i < hf.channels.toNat * hf.samples_per_ch.toNat
          rwa [hs.ready.channels, ← hch] at hlt
    · exact hs.one

theorem Measures.addBacklog {h : IqHeader} (hs : Measures h s) : Measures h (addBacklog h s) := by
  unfold Df.addBacklog
  split_ifs
  · exact List.foldlRecOn s.held (Df.addHeld h) hs fun s hs hf _ => hs.addHeld hf
  · exact ⟨hs.prepared, hs.ready, hs.one⟩
  · exact hs

theorem asInt_toNat {u : UInt32} (h : 0 < (asInt u).toNat) : (asInt u).toNat = u.toNat := by
  have hlt : u.toNat < 2 ^ 32 := u.toNat_lt
  unfold asInt at h ⊢
  split_ifs at h ⊢ <;> omega

theorem pickUp_spec (A : Doubles D) (t : Turn D) (q : Request D) (hone : OneSituation s) :
    OneSituation (pickUp A t q s) ∧
      ((pickUp A t q s).measuring = true → Measures t.frame.hdr (pickUp A t q s)) := by
  unfold pickUp
  dsimp only
  split
  next => exact ⟨hone, fun h => Bool.noConfusion h⟩
  next =>
  split
  next => exact ⟨hone, fun h => Bool.noConfusion h⟩
  next =>
  split
  next => exact ⟨hone, fun h => Bool.noConfusion h⟩
  next xspec hprepare =>
  split
  next => exact ⟨hone, fun h => Bool.noConfusion h⟩
  next =>
    have hready := XSpec.ready_of_prepare hprepare
    have hchannels : (asInt t.frame.hdr.active_ant_chs).toNat =
        t.frame.hdr.active_ant_chs.toNat :=
      asInt_toNat (Nat.lt_of_lt_of_le (by decide) hready.least)
    rw [show (paramsOf A q t.frame.hdr _).elements = asInt t.frame.hdr.active_ant_chs from rfl,
      hchannels] at hready
    have hmeasures := Measures.addBacklog (s :=
      { s with
        cur := q
        xspec := xspec
        prepared := t.frame.hdr
        measuring := true
        got := 0
        discarded := 0
        od_mask := 0
        budget := max (t.cfg.adjust A (asInt t.frame.hdr.active_ant_chs)).max_frames q.frames + 8 })
      ⟨rfl, hready, hone⟩
    exact ⟨hmeasures.one, fun _ => hmeasures⟩

/-- Whether the frame at hand is offered to the measurement. -/
def Offers (t : Turn D) (s : EngineLoop D) : Prop :=
  t.cancel = false ∧ s.got < s.cur.frames ∧ usableForDf t.frame.hdr = true ∧
    t.frame.stale = false ∧ t.frame.iq = true ∧ s.xspec.k_ ≤ t.frame.hdr.cpi_length.toNat

theorem solve_rest (t : Turn D) (s : EngineLoop D) :
    (solve t s).added = s.added ∧ (solve t s).measuring = false := by
  unfold solve
  split_ifs <;> exact ⟨rfl, rfl⟩

/-- What `measure` adds: the frame at hand if it is offered, and else nothing. -/
def Turn.entry (t : Turn D) (s : EngineLoop D) : Added where
  rf_center_freq := t.frame.hdr.rf_center_freq
  sampling_freq := t.frame.hdr.sampling_freq
  active_ant_chs := t.frame.hdr.active_ant_chs
  payload := t.frame.payload
  reads := s.xspec.reads t.frame.hdr.cpi_length.toNat
  prepared := s.prepared

theorem measure_spec (t : Turn D) (hready : s.xspec.Ready s.prepared.active_ant_chs.toNat) :
    (¬Offers t s → (measure t s).added = s.added) ∧
      (Offers t s → (measure t s).added = s.added ++ [t.entry s]) ∧ Prepared (measure t s) := by
  unfold measure
  dsimp only
  split
  next hcancel =>
    refine ⟨fun _ => rfl, fun h => ?_, fun h => Bool.noConfusion h⟩
    rw [h.1] at hcancel
    exact Bool.noConfusion hcancel
  next hcancel =>
  split
  next henough =>
    obtain ⟨hadded, hmeasuring⟩ := solve_rest t s
    refine ⟨fun _ => hadded, fun h => absurd h.2.1 (not_lt.2 henough), fun h => ?_⟩
    rw [hmeasuring] at h
    exact Bool.noConfusion h
  next henough =>
  split
  next hunusable =>
    have hnot : ¬Offers t s := fun h => by
      simp [h.2.2.1, h.2.2.2.1, h.2.2.2.2.1] at hunusable
    split
    · exact ⟨fun _ => rfl, fun h => absurd h hnot, fun h => Bool.noConfusion h⟩
    · exact ⟨fun _ => rfl, fun h => absurd h hnot, fun _ => hready⟩
  next husable =>
    -- the frame is offered to what is being measured, one frame of the budget later
    generalize hs' : ({ s with
      budget := s.budget - 1
      od_mask := s.od_mask ||| t.frame.hdr.adc_overdrive_flags } : EngineLoop D) = s'
    have hxspec : s'.xspec = s.xspec := by rw [← hs']
    have hprep : s'.prepared = s.prepared := by rw [← hs']
    have hprev : s'.added = s.added := by rw [← hs']
    have hready' : s'.xspec.Ready s'.prepared.active_ant_chs.toNat := by rwa [hxspec, hprep]
    have hadded := offer_added hready' t.frame.hdr.rf_center_freq t.frame.hdr.sampling_freq
      t.frame.hdr.active_ant_chs t.frame.hdr.cpi_length t.frame.payload
    obtain ⟨-, hprepared, -, hkeeps⟩ := offer_rest s' t.frame.hdr.rf_center_freq
      t.frame.hdr.sampling_freq t.frame.hdr.active_ant_chs t.frame.hdr.cpi_length t.frame.payload
    generalize offer s' t.frame.hdr.rf_center_freq t.frame.hdr.sampling_freq
      t.frame.hdr.active_ant_chs t.frame.hdr.cpi_length t.frame.payload = s'' at *
    rw [hxspec, hprep, hprev] at hadded
    have hoffers : Offers t s ↔ s.xspec.k_ ≤ t.frame.hdr.cpi_length.toNat := by
      refine ⟨fun h => h.2.2.2.2.2, fun h => ⟨by simpa using hcancel, not_le.1 henough, ?_⟩⟩
      simp only [Bool.or_eq_true, Bool.not_eq_true', not_or, Bool.not_eq_false] at husable
      exact ⟨husable.1.1, by simpa using husable.1.2, husable.2, h⟩
    have hready'' : s''.xspec.Ready s''.prepared.active_ant_chs.toNat := by
      rw [hprepared]
      exact hkeeps _ hready'
    have hboth : (¬Offers t s → s''.added = s.added) ∧
        (Offers t s → s''.added = s.added ++ [t.entry s]) := by
      rw [hoffers, hadded]
      exact ⟨fun h => if_neg h, fun h => if_pos h⟩
    split
    · exact ⟨hboth.1, hboth.2, fun _ => hready''⟩
    · obtain ⟨hsolved, hmeasuring⟩ := solve_rest t s''
      rw [hsolved]
      refine ⟨hboth.1, hboth.2, fun h => ?_⟩
      rw [hmeasuring] at h
      exact Bool.noConfusion h

/-- A frame that is offered is of the situation, and read within its payload, exactly if its header
is of the situation. -/
theorem entry_ofSituation_iff (t : Turn D)
    (hready : s.xspec.Ready s.prepared.active_ant_chs.toNat) :
    OfSituation (t.entry s) ↔ SameSituation t.frame.hdr s.prepared := by
  constructor
  · intro h
    exact ⟨h.rf_center_freq, h.sampling_freq, h.active_ant_chs⟩
  · rintro ⟨hrf, hfs, hch⟩
    refine ⟨hrf, hfs, hch, fun i hi => ?_⟩
    have hlt := XSpec.reads_lt hi
    rw [← payload_of_ready (h := t.frame.hdr) (by rwa [hch])] at hlt
    exact hlt

theorem measure_oneSituation_iff (t : Turn D)
    (hready : s.xspec.Ready s.prepared.active_ant_chs.toNat) (hone : OneSituation s) :
    OneSituation (measure t s) ↔ (Offers t s → SameSituation t.frame.hdr s.prepared) := by
  obtain ⟨hnot, hadds, -⟩ := measure_spec t hready
  by_cases hoffers : Offers t s
  · rw [← entry_ofSituation_iff t hready, OneSituation, hadds hoffers]
    constructor
    · intro h _
      exact h _ (List.mem_append_right _ (List.mem_singleton.2 rfl))
    · intro h a ha
      rcases List.mem_append.1 ha with ha | ha
      · exact hone a ha
      · rw [List.mem_singleton.1 ha]
        exact h hoffers
  · rw [OneSituation, hnot hoffers]
    exact ⟨fun _ h => absurd h hoffers, fun _ => hone⟩

/-! ## Runs -/

/-- What a turn has to meet: when it is offered to a measurement that began in an earlier turn, the
frame has the tuning, the sample rate and the number of channels of the frame of that turn. -/
def Steady (s : EngineLoop D) (e : EngineEvent D) : Prop :=
  match e with
  | .turn t => s.connected = true → s.measuring = true → Offers t s →
      SameSituation t.frame.hdr s.prepared
  | _ => True

theorem keepFrame_eq (t : Turn D) (s : EngineLoop D) :
    ∃ held hold_on, keepFrame t s = { s with held := held, hold_on := hold_on } := by
  unfold keepFrame
  dsimp only
  split_ifs <;> exact ⟨_, _, rfl⟩

theorem next_spec (A : Doubles D) (e : EngineEvent D) (hprepared : Prepared s)
    (hone : OneSituation s) :
    Prepared (s.next A e) ∧ (OneSituation (s.next A e) ↔ Steady s e) := by
  cases e with
  | lost => exact ⟨hprepared, fun _ => trivial, fun _ => hone⟩
  | connect ok =>
    unfold EngineLoop.next Steady
    dsimp only
    split_ifs
    · exact ⟨hprepared, fun _ => trivial, fun _ => hone⟩
    · exact ⟨fun h => Bool.noConfusion h, fun _ => trivial, fun _ => hone⟩
    · exact ⟨hprepared, fun _ => trivial, fun _ => hone⟩
  | turn t =>
    unfold EngineLoop.next
    dsimp only
    split
    next hconnected =>
      obtain ⟨held, hold_on, hkeep⟩ := keepFrame_eq t s
      unfold turn
      rw [hkeep]
      dsimp only
      split
      next hmeasuring =>
        have hready := hprepared hmeasuring
        refine ⟨(measure_spec t (s := { s with held := held, hold_on := hold_on }) hready).2.2, ?_⟩
        rw [measure_oneSituation_iff (s := { s with held := held, hold_on := hold_on }) t hready hone]
        exact ⟨fun h _ _ => h, fun h => h hconnected hmeasuring⟩
      next hfree =>
        have hsteady : Steady s (.turn t) := fun _ hmeasuring => absurd hmeasuring hfree
        split
        next =>
          exact ⟨fun h => absurd h hfree, fun _ => hsteady, fun _ => hone⟩
        next q hq =>
          obtain ⟨hpicked, hmeasures⟩ := pickUp_spec A t q
            (s := { s with held := held, hold_on := hold_on }) hone
          generalize pickUp A t q { s with held := held, hold_on := hold_on } = s' at *
          split
          next hbegun =>
            have hm := hmeasures hbegun
            have hready : s'.xspec.Ready s'.prepared.active_ant_chs.toNat := by
              rw [hm.prepared]
              exact hm.ready
            refine ⟨(measure_spec t hready).2.2, fun _ => hsteady, fun _ => ?_⟩
            refine (measure_oneSituation_iff t hready hm.one).2 fun _ => ?_
            rw [hm.prepared]
            exact ⟨rfl, rfl, rfl⟩
          next hfailed =>
            exact ⟨fun h => absurd h hfailed, fun _ => hsteady, fun _ => hpicked⟩
    next hdown =>
      exact ⟨hprepared, fun _ hconnected => absurd hconnected hdown, fun _ => hone⟩

/-- In every run, whatever the frames, requests, settings, losses and cancellations: all frames that
were added, live or held, have the tuning, the sample rate and the channels for which their
measurement was prepared, and only their payloads were read, exactly if every turn was steady. -/
theorem oneSituation_iff (A : Doubles D) (events : List (EngineEvent D)) :
    (∀ es, es <+: events → OneSituation (es.foldl (EngineLoop.next A) (.start A))) ↔
      ∀ es e, es ++ [e] <+: events → Steady (es.foldl (EngineLoop.next A) (.start A)) e := by
  refine Lib.forall_prefix_foldl_iff (P := Prepared) (Q := OneSituation) ?_ ?_ ?_ ?_ events
  · exact fun s e hprepared hone _ => (next_spec A e hprepared hone).1
  · exact fun s e hprepared hone => (next_spec A e hprepared hone).2
  · exact fun h => Bool.noConfusion h
  · exact fun a ha => by simp [EngineLoop.start] at ha

/-! ## A retune -/

/-- A usable frame of 256 samples a channel, at 2.4 MHz. -/
def frameAt (rf_center_freq : UInt64) (active_ant_chs : UInt32) : Frame where
  hdr := { frame_type := FRAME_DATA
           active_ant_chs
           rf_center_freq
           sampling_freq := 2400000
           cpi_length := 256
           adc_overdrive_flags := 0
           delay_sync_flag := 1
           iq_sync_flag := 1
           noise_source_state := 0 }
  stale := false

/-- A turn with a frame. -/
def turnWith (frame : Frame) (request : Option (Request ℚ)) : Turn ℚ where
  frame
  hold_expired := false
  request
  cfg := { Config.default exact with fft_size := 256 }
  alloc := true
  manifold := true
  cancel := false
  accepted := true

/-- Three frames of a channel of 200 kHz at 700.5 MHz. -/
def requestAt700 : Request ℚ where
  center_hz := 700500000
  bandwidth_hz := 200000
  frames := 3
  algo := .music
  signal_dim := 1
  seq := 1
  ui_tag := 0
  ui_dnum := 1
  use_backlog := false

/-- A request is picked up at 700 MHz; the DAQ is tuned to 701 MHz and comes back with four channels.
-/
def retuned : List (EngineEvent ℚ) :=
  [.connect true, .turn (turnWith (frameAt 700000000 5) (some requestAt700)),
    .turn (turnWith (frameAt 701000000 4) none)]

/-- The frame after the retune is added to the measurement. -/
theorem not_oneSituation_of_retune :
    ¬∀ events : List (EngineEvent ℚ), ∀ es, es <+: events →
      OneSituation (es.foldl (EngineLoop.next exact) (.start exact)) := by
  intro h
  have hadded : (retuned.foldl (EngineLoop.next exact) (.start exact)).added.map
      (fun a => (a.rf_center_freq, a.prepared.rf_center_freq)) =
      [(700000000, 700000000), (701000000, 700000000)] := by decide +kernel
  have hlast : ((701000000, 700000000) : UInt64 × UInt64) ∈
      (retuned.foldl (EngineLoop.next exact) (.start exact)).added.map
        (fun a => (a.rf_center_freq, a.prepared.rf_center_freq)) := by
    rw [hadded]
    exact List.mem_cons_of_mem _ List.mem_cons_self
  obtain ⟨a, ha, heq⟩ := List.mem_map.1 hlast
  have hrf := (h retuned retuned List.prefix_rfl a ha).rf_center_freq
  rw [(Prod.mk.inj heq).1, (Prod.mk.inj heq).2] at hrf
  exact absurd hrf (by decide)

end Bewe.Df
