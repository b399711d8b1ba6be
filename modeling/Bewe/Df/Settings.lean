import Bewe.Df.Engine

/-!
# The settings of direction finding

HOST has them twice: `K.cfg`, which `df_set_cfg` checks and changes and `df_get_cfg` broadcasts, and the
configuration of the engine, from which `df_submit` takes what a request takes along, and the loop what
it measures with. They are under two locks, and `df_set_cfg` has neither between its store and
`apply_config`; the loop, which makes its own copy when it picks up a request, writes the elements back
to the engine alone when the DAQ delivers another number of channels.

One event is what one thread does under one lock. Any number of calls of `df_set_cfg` and of `df_submit`
may be under way.
The frames of a measurement are left to `Df.Engine`: here it may at any time be solved or given up.
`oneConfiguration_of_run` says when there is one configuration, and
`not_oneConfiguration_of_channels` is a run in which the DAQ delivers four channels for five.
-/

namespace Bewe.Df

variable {D : Type}

/-! ## The packet -/

/-- `PktDfConfig`. A `float` is the double of its value. -/
structure PktDfConfig (D : Type) where
  radius_m : D
  heading_deg : D
  snr_thr_db : D
  dc_guard_hz : D
  c_papr : D
  target_looks : UInt16
  fft_size : UInt16
  elements : UInt8
  algo : UInt8
  sense : UInt8
  avg_frames : UInt8
  max_frames : UInt8
  signal_dim : UInt8
  enable_control : UInt8
  gain_idx : UInt8
  array_type : UInt8
  mrc : UInt8
  elem_x : Fin kMaxElements → D
  elem_y : Fin kMaxElements → D

/-- The number of an `Algo`. -/
def Algo.toByte : Algo → UInt8
  | .bartlett => 0
  | .capon => 1
  | .music => 2

/-- The `Algo` of a number, the last one from there on. -/
def Algo.ofByte (b : UInt8) : Algo := if b = 0 then .bartlett else if b = 1 then .capon else .music

/-- The number of a `Sense`. -/
def Sense.toByte : Sense → UInt8
  | .cw => 0
  | .ccw => 1

/-- The `Sense` of a number, the last one from there on. -/
def Sense.ofByte (b : UInt8) : Sense := if b = 0 then .cw else .ccw

/-- The number of an `ArrayType`. -/
def ArrayType.toByte : ArrayType → UInt8
  | .uca => 0
  | .ula => 1
  | .ulaPlus => 2
  | .custom => 3

/-- The `ArrayType` of a number, the last one from there on. -/
def ArrayType.ofByte (b : UInt8) : ArrayType :=
  if b = 0 then .uca else if b = 1 then .ula else if b = 2 then .ulaPlus else .custom

/-- `cfg_to_pkt`. -/
def cfgToPkt (A : Doubles D) (c : Config D) : PktDfConfig D where
  radius_m := A.single c.radius_m
  heading_deg := A.single c.heading_deg
  snr_thr_db := A.single c.snr_threshold_db
  dc_guard_hz := A.single c.dc_guard_hz
  c_papr := A.single c.c_papr
  target_looks := .ofInt (min c.target_looks 65535)
  fft_size := .ofInt (min c.fft_size 65535)
  elements := .ofInt c.elements
  algo := c.algo.toByte
  sense := c.sense.toByte
  avg_frames := .ofInt c.avg_frames
  max_frames := .ofInt c.max_frames
  signal_dim := .ofInt c.signal_dim
  enable_control := if c.enable_control then 1 else 0
  mrc := if c.mrc_enable then 1 else 0
  gain_idx := 255
  array_type := c.array_type.toByte
  elem_x m := A.single (c.elem_x m)
  elem_y m := A.single (c.elem_y m)

/-- `pkt_to_cfg`: without coordinates a preset places the elements, the circle where they should have
been placed by hand. -/
def pktToCfg (A : Doubles D) (p : PktDfConfig D) (c : Config D) : Config D :=
  let c := { c with
    radius_m := p.radius_m
    heading_deg := p.heading_deg
    snr_threshold_db := p.snr_thr_db
    dc_guard_hz := p.dc_guard_hz
    c_papr := p.c_papr
    target_looks := p.target_looks.toNat
    fft_size := p.fft_size.toNat
    elements := p.elements.toNat
    algo := .ofByte p.algo
    sense := .ofByte p.sense
    avg_frames := p.avg_frames.toNat
    max_frames := p.max_frames.toNat
    signal_dim := p.signal_dim.toNat
    enable_control := p.enable_control != 0
    mrc_enable := p.mrc != 0
    array_type := .ofByte p.array_type
    elem_x := p.elem_x
    elem_y := p.elem_y }
  if A.le (span A c.elem_x c.elem_y c.elements) (A.lit (1 / 10 ^ 9)) then
    { c with
      array_type := if c.array_type = ArrayType.custom then .uca else c.array_type }.rebuildGeom A
  else c

/-! ## The state -/

/-- Where a call of `df_submit` is: nowhere, before the check of `submit`, behind it, and with the slot
filled. -/
inductive Submitting (D : Type)
  | idle
  | made (q : Request D)
  | writing (q : Request D)
  | written

/-- Where the loop is: without a request; with one taken; with one that it measures with `c`, which is
adjusted to the channels of the frame and not yet written back; and measuring with `c`. -/
inductive Phase (D : Type)
  | idle
  | taken
  | adjusting (h : IqHeader) (c : Config D)
  | measuring (c : Config D)

/-- `armed`. -/
def Phase.armed : Phase D → Bool
  | .measuring _ => true
  | _ => false

/-- Whether the loop is between its copy of the configuration and writing back. -/
def Phase.between : Phase D → Bool
  | .adjusting _ _ => true
  | _ => false

/-- The two configurations, `kst_cfg` for `K.cfg` and `cfg` for that of the engine, and what is under
way: `applying` has the configurations that `df_set_cfg` has stored and not applied, in the order of the
stores. `applied` says that one was applied since the loop made its copy. The history has the broadcasts,
each adjustment that came after another configuration was applied, with the configuration of the engine
before and after it, and what each measurement was solved with. -/
structure Settings (D : Type) where
  kst_cfg : Config D
  cfg : Config D
  applying : List (Config D)
  submitting : ℕ → Submitting D
  req : Request D
  req_pending : Bool
  cur : Request D
  phase : Phase D
  xspec : XSpec
  applied : Bool
  broadcasts : List (PktDfConfig D)
  adjustments : List (Config D × Config D)
  solved : List (Config D)

/-- `initialize_kraken` with a configuration that passes its check, up to its `apply_config`. -/
def initializeKraken (A : Doubles D) (c : Config D) : Settings D where
  kst_cfg := c
  cfg := c
  applying := []
  submitting _ := .idle
  req := (EngineLoop.start A).cur
  req_pending := false
  cur := (EngineLoop.start A).cur
  phase := .idle
  xspec := (EngineLoop.start A).xspec
  applied := false
  broadcasts := []
  adjustments := []
  solved := []

/-! ## Setting and broadcasting -/

/-- `df_set_cfg` up to the store: a configuration that fails its check is not stored. -/
def Settings.dfSetCfg (A : Doubles D) (p : PktDfConfig D) (s : Settings D) : Settings D :=
  let c := pktToCfg A p s.kst_cfg
  if c.validate A then { s with kst_cfg := c, applying := s.applying ++ [c] } else s

/-- `apply_config`, in one of the calls of `df_set_cfg` that are under way. -/
def Settings.applyConfig (i : ℕ) (s : Settings D) : Settings D :=
  match s.applying[i]? with
  | none => s
  | some c => { s with cfg := c, applying := s.applying.eraseIdx i, applied := true }

/-- `df_get_cfg`, with the index of the gain from the state of the DAQ. -/
def Settings.dfGetCfg (A : Doubles D) (gain_idx : UInt8) (s : Settings D) : PktDfConfig D :=
  { cfgToPkt A s.kst_cfg with gain_idx }

/-! ## Requests -/

/-- Call `i` of `df_submit` goes on to `a`. -/
def Settings.goOn (s : Settings D) (i : ℕ) (a : Submitting D) : Settings D :=
  { s with submitting := Function.update s.submitting i a }

/-- `df_submit` up to `submit`. -/
def Settings.dfSubmit (i : ℕ) (center_hz bw_hz : D) (arr_idx dnum : ℤ) (seq : ℕ)
    (use_backlog : Bool) (s : Settings D) : Settings D :=
  s.goOn i <| .made
    { center_hz
      bandwidth_hz := bw_hz
      frames := s.cfg.avg_frames
      algo := s.cfg.algo
      signal_dim := s.cfg.signal_dim
      seq
      ui_tag := arr_idx
      ui_dnum := dnum
      use_backlog }

/-- The check of `submit`. -/
def Settings.check (i : ℕ) (q : Request D) (s : Settings D) : Settings D :=
  s.goOn i (if s.phase.armed || s.req_pending then .idle else .writing q)

/-! ## Measuring -/

/-- What a measurement is solved with, as a configuration: the number of channels of the cross spectra,
what the request took along, what the loop copied when it picked it up, and from the copy that it makes
at the end the heading and the thresholds. Of frames there are at most as many as were asked for, or
`max_frames` if these are more. -/
def solvedWith (q : Request D) (m : ℕ) (c last : Config D) : Config D :=
  { c with
    elements := m
    avg_frames := q.frames
    max_frames := max c.max_frames q.frames
    algo := q.algo
    signal_dim := q.signal_dim
    heading_deg := last.heading_deg
    c_papr := last.c_papr
    snr_threshold_db := last.snr_threshold_db }

/-- The cross spectra are prepared, and the measurement begins. -/
def Settings.begin (A : Doubles D) (h : IqHeader) (c : Config D) (alloc manifold : Bool)
    (s : Settings D) : Settings D :=
  match s.xspec.prepare A (paramsOf A s.cur h c) alloc with
  | (xspec, some _) => { s with xspec, phase := .idle }
  | (xspec, none) => { s with xspec, phase := if manifold then .measuring c else .idle }

/-- Whether a request is refused before the configuration is looked at. -/
def unfit (A : Doubles D) (q : Request D) (h : IqHeader) : Bool :=
  A.le q.bandwidth_hz (A.lit 0) || A.le q.center_hz (A.lit 0) || decide (h.active_ant_chs < 3)

/-- The request that was taken is copied, and the configuration. -/
def Settings.pickUp (A : Doubles D) (h : IqHeader) (alloc manifold : Bool) (s : Settings D) :
    Settings D :=
  let s := { s with cur := s.req, applied := false }
  if unfit A s.cur h then { s with phase := .idle }
  else if asInt h.active_ant_chs ≠ s.cfg.elements then
    { s with phase := .adjusting h (s.cfg.adjust A (asInt h.active_ant_chs)) }
  else s.begin A h s.cfg alloc manifold

/-- What the adjustment writes back. -/
def Config.withArray (c d : Config D) : Config D :=
  { c with
    elements := d.elements
    array_type := d.array_type
    elem_x := d.elem_x
    elem_y := d.elem_y }

/-- The adjustment is written back, and the measurement begins. -/
def Settings.patch (A : Doubles D) (h : IqHeader) (c : Config D) (alloc manifold : Bool)
    (s : Settings D) : Settings D :=
  { s with
    cfg := s.cfg.withArray c
    adjustments := if s.applied then s.adjustments ++ [(s.cfg, s.cfg.withArray c)]
      else s.adjustments }.begin A h c alloc manifold

/-- The measurement is solved, with the thresholds that the engine has by then. -/
def Settings.solve (c : Config D) (s : Settings D) : Settings D :=
  { s with
    phase := .idle
    solved := s.solved ++ [solvedWith s.cur s.xspec.m_ c s.cfg] }

/-! ## The events -/

/-- What a thread does under a lock. -/
inductive SettingsEvent (D : Type)
  | dfSetCfg (p : PktDfConfig D)
  | applyConfig (i : ℕ)
  | broadcast (gain_idx : UInt8)
  | dfSubmit (i : ℕ) (center_hz bw_hz : D) (arr_idx dnum : ℤ) (seq : ℕ) (use_backlog : Bool)
  | check (i : ℕ)
  | write (i : ℕ)
  | commit (i : ℕ)
  | take
  | pickUp (h : IqHeader) (alloc manifold : Bool)
  | patch (alloc manifold : Bool)
  | solve
  | giveUp

/-- One event; nothing happens where a thread is not where it belongs. -/
def Settings.next (A : Doubles D) (s : Settings D) (e : SettingsEvent D) : Settings D :=
  match e, s.phase with
  | .dfSetCfg p, _ => s.dfSetCfg A p
  | .applyConfig i, _ => s.applyConfig i
  | .broadcast gain_idx, _ => { s with broadcasts := s.broadcasts ++ [s.dfGetCfg A gain_idx] }
  | .dfSubmit i center_hz bw_hz arr_idx dnum seq use_backlog, _ =>
    match s.submitting i with
    | .idle => s.dfSubmit i center_hz bw_hz arr_idx dnum seq use_backlog
    | _ => s
  | .check i, _ =>
    match s.submitting i with
    | .made q => s.check i q
    | _ => s
  | .write i, _ =>
    match s.submitting i with
    | .writing q => { s with req := q }.goOn i .written
    | _ => s
  | .commit i, _ =>
    match s.submitting i with
    | .written => { s with req_pending := true }.goOn i .idle
    | _ => s
  | .take, .idle => if s.req_pending then { s with req_pending := false, phase := .taken } else s
  | .pickUp h alloc manifold, .taken => s.pickUp A h alloc manifold
  | .patch alloc manifold, .adjusting h c => s.patch A h c alloc manifold
  | .solve, .measuring c => s.solve c
  | .giveUp, .measuring _ => { s with phase := .idle }
  | _, _ => s

/-- What is left after `initialize_kraken` and a run. -/
def settingsAfter (A : Doubles D) (c : Config D) (events : List (SettingsEvent D)) : Settings D :=
  events.foldl (Settings.next A) (initializeKraken A c)

/-! ## One configuration -/

/-- The same elements: as many, placed by the same preset or by hand, at the same coordinates. -/
structure SameArray (c d : Config D) : Prop where
  elements : c.elements = d.elements
  array_type : c.array_type = d.array_type
  elem_x : c.elem_x = d.elem_x
  elem_y : c.elem_y = d.elem_y

/-- No configuration is stored and not applied, and none adjusted and not written back. -/
structure Still (s : Settings D) : Prop where
  applying : s.applying = []
  between : s.phase.between = false

/-- The elements in a packet. -/
def PktDfConfig.array (p : PktDfConfig D) :
    UInt8 × UInt8 × (Fin kMaxElements → D) × (Fin kMaxElements → D) :=
  (p.elements, p.array_type, p.elem_x, p.elem_y)

/-- There is one configuration: when no step is under way, both have the same elements, and these are
what is broadcast; no adjustment has changed the elements of a configuration that was applied
meanwhile; and all that a measurement was solved with passes the check. -/
structure OneConfiguration (A : Doubles D) (s : Settings D) : Prop where
  agree : Still s → SameArray s.kst_cfg s.cfg
  broadcast : Still s → ∀ gain_idx, (s.dfGetCfg A gain_idx).array = (cfgToPkt A s.cfg).array
  adjustments : ∀ p ∈ s.adjustments, SameArray p.1 p.2
  solved : ∀ p ∈ s.solved, p.validate A = true

/-- What an event has to meet: of the configurations that are stored and not applied, the one stored
last is applied last; a request for which the configuration is looked at is for fewer signals than the
frame has channels; and an adjustment that is written back has the elements of the configuration that
it is written to, unless one is stored and not applied and none was applied since the copy. -/
def Settings.Orderly (A : Doubles D) (s : Settings D) (e : SettingsEvent D) : Prop :=
  match e, s.phase with
  | .applyConfig i, _ => i + 1 = s.applying.length → i = 0
  | .pickUp h _ _, .taken => unfit A s.req h = false → s.req.signal_dim < asInt h.active_ant_chs
  | .patch _ _, .adjusting _ c => s.applying = [] ∨ s.applied = true → SameArray s.cfg c
  | _, _ => True

/-- A configuration that passes the check but, maybe, for the number of its elements. -/
def Config.Usable (A : Doubles D) (c : Config D) : Prop :=
  ({ c with elements := (kMaxElements : ℤ) } : Config D).Checked A

/-- What a request takes along from such a configuration. -/
structure Request.Sound (q : Request D) : Prop where
  signal_dim : 1 ≤ q.signal_dim
  frames : 1 ≤ q.frames ∧ q.frames ≤ 60

variable {A : Doubles D} {s : Settings D}

theorem Config.Checked.usable {c : Config D} (h : c.Checked A) : c.Usable A := by
  have helements := h.elements
  have hdim := h.signal_dim
  have hmax : (kMaxElements : ℤ) = 8 := rfl
  exact { h with
    elements := by show ¬((kMaxElements : ℤ) < 3 ∨ 8 < (kMaxElements : ℤ)); omega
    signal_dim := by show ¬(c.signal_dim < 1 ∨ (kMaxElements : ℤ) ≤ c.signal_dim); omega }

theorem Config.Usable.withArray {c : Config D} (h : c.Usable A) (d : Config D) :
    (c.withArray d).Usable A :=
  { h with }

theorem Config.adjust_eq (A : Doubles D) (c : Config D) (channels : ℤ) :
    c.adjust A channels = c.withArray (c.adjust A channels) := by
  unfold Config.adjust Config.rebuildGeom
  dsimp only
  split_ifs <;> rfl

theorem Config.Usable.adjust {c : Config D} (h : c.Usable A) (channels : ℤ) :
    (c.adjust A channels).Usable A := by
  rw [Config.adjust_eq]
  exact h.withArray _

/-- What a measurement is solved with passes the check, if there are as many channels as elements may
be, and more than signals. -/
theorem solvedWith_checked {q : Request D} {m : ℕ} {c last : Config D} (hq : q.Sound)
    (hc : c.Usable A) (hlast : last.Usable A) (hleast : 3 ≤ m) (hmost : m ≤ kMaxElements)
    (hdim : q.signal_dim < m) : (solvedWith q m c last).Checked A := by
  obtain ⟨hsignal, hframes, hframes'⟩ := hq
  have hmax : kMaxElements = 8 := rfl
  exact
    { hc with
      elements := by show ¬((m : ℤ) < 3 ∨ 8 < (m : ℤ)); omega
      signal_dim := by show ¬(q.signal_dim < 1 ∨ (m : ℤ) ≤ q.signal_dim); omega
      avg_frames := by show ¬(q.frames < 1 ∨ 60 < q.frames); omega
      max_frames := by show ¬max c.max_frames q.frames < q.frames; omega
      snr_threshold_db := hlast.snr_threshold_db
      c_papr := hlast.c_papr }

/-! ## What is kept -/

/-- The last configuration stored is `K.cfg`, and where none waits the engine has its elements; all
are usable, as is what requests and measurements have taken from them; and the history is as it should
be. -/
structure Kept (A : Doubles D) (s : Settings D) : Prop where
  kst : s.kst_cfg.Checked A
  cfg : s.cfg.Usable A
  applying : ∀ c ∈ s.applying, c.Checked A
  last : ∀ c, s.applying.getLast? = some c → c = s.kst_cfg
  agree : s.applying = [] → SameArray s.kst_cfg s.cfg
  submitting : ∀ i q, s.submitting i = .made q ∨ s.submitting i = .writing q → q.Sound
  req : s.req.Sound
  cur : s.cur.Sound
  adjusting : ∀ h c, s.phase = .adjusting h c →
    c.Usable A ∧ 3 ≤ asInt h.active_ant_chs ∧ s.cur.signal_dim < asInt h.active_ant_chs
  measuring : ∀ c, s.phase = .measuring c →
    c.Usable A ∧ 3 ≤ s.xspec.m_ ∧ s.xspec.m_ ≤ kMaxElements ∧ s.cur.signal_dim < s.xspec.m_
  adjustments : ∀ p ∈ s.adjustments, SameArray p.1 p.2
  solved : ∀ p ∈ s.solved, p.Checked A

theorem kept_initial {c : Config D} (hc : c.Checked A) : Kept A (initializeKraken A c) where
  kst := hc
  cfg := hc.usable
  applying d hd := by simp [initializeKraken] at hd
  last d hd := by simp [initializeKraken] at hd
  agree _ := ⟨rfl, rfl, rfl, rfl⟩
  submitting i q hq := by simp [initializeKraken] at hq
  req := ⟨Int.le_refl 1, by show (1 : ℤ) ≤ 3 ∧ (3 : ℤ) ≤ 60; decide⟩
  cur := ⟨Int.le_refl 1, by show (1 : ℤ) ≤ 3 ∧ (3 : ℤ) ≤ 60; decide⟩
  adjusting h d hd := by simp [initializeKraken] at hd
  measuring d hd := by simp [initializeKraken] at hd
  adjustments p hp := by simp [initializeKraken] at hp
  solved p hp := by simp [initializeKraken] at hp

theorem Kept.dfSetCfg (h : Kept A s) (p : PktDfConfig D) : Kept A (s.dfSetCfg A p) := by
  unfold Settings.dfSetCfg
  dsimp only
  split_ifs with hvalid
  · have hc := Config.validate_iff.1 hvalid
    exact { h with
      kst := hc
      applying := fun c hmem => by
        rcases List.mem_append.1 hmem with hmem | hmem
        · exact h.applying c hmem
        · rwa [List.mem_singleton.1 hmem]
      last := fun c hlast => by
        rw [List.getLast?_concat] at hlast
        exact (Option.some.inj hlast).symm
      agree := fun hnil => by simp at hnil }
  · exact h

/-- The last one of a list stays the last one when another one goes. -/
private theorem getLast?_eraseIdx {l : List (Config D)} {i : ℕ} (hi : i + 1 < l.length) :
    (l.eraseIdx i).getLast? = l.getLast? := by
  rw [List.getLast?_eq_getElem?, List.getLast?_eq_getElem?, List.length_eraseIdx_of_lt (by omega),
    List.getElem?_eraseIdx, if_neg (by omega)]
  congr 1
  omega

theorem Kept.applyConfig (h : Kept A s) {i : ℕ} (hlast : i + 1 = s.applying.length → i = 0) :
    Kept A (s.applyConfig i) := by
  unfold Settings.applyConfig
  cases hc : s.applying[i]? with
  | none => exact h
  | some c =>
    obtain ⟨hlt, hget⟩ := List.getElem?_eq_some_iff.1 hc
    refine { h with
      cfg := (h.applying c (List.mem_of_getElem? hc)).usable
      applying := fun d hd => h.applying d (List.mem_of_mem_eraseIdx hd)
      last := fun d hd => h.last d ?_
      agree := fun hnil => ?_ }
    · have hne : s.applying.eraseIdx i ≠ [] := by
        rintro hnil
        rw [hnil] at hd
        cases hd
      rcases List.eraseIdx_ne_nil_iff.1 hne with hlen | ⟨hlen, hi⟩
      · rwa [getLast?_eraseIdx (by omega)] at hd
      · omega
    · -- it was the only one, so that it is `K.cfg`
      rcases List.eraseIdx_eq_nil_iff.1 hnil with hnil | ⟨hlen, rfl⟩
      · rw [hnil] at hlt
        exact absurd hlt (Nat.not_lt_zero _)
      · have hkst : c = s.kst_cfg := by
          refine h.last c ?_
          rw [List.getLast?_eq_getElem?, hlen]
          exact hc
        rw [hkst]
        exact ⟨rfl, rfl, rfl, rfl⟩

/-- A call goes on with a request that takes along what it should. -/
theorem Kept.goOn (h : Kept A s) (i : ℕ) {a : Submitting D}
    (ha : ∀ q, a = .made q ∨ a = .writing q → q.Sound) : Kept A (s.goOn i a) :=
  { h with
    submitting := fun j q hq => by
      by_cases hj : j = i
      · subst hj
        exact ha q (by simpa [Settings.goOn] using hq)
      · exact h.submitting j q (by simpa [Settings.goOn, hj] using hq) }

theorem Kept.dfSubmit (h : Kept A s) (i : ℕ) (center_hz bw_hz : D) (arr_idx dnum : ℤ) (seq : ℕ)
    (use_backlog : Bool) : Kept A (s.dfSubmit i center_hz bw_hz arr_idx dnum seq use_backlog) := by
  have hdim := h.cfg.signal_dim
  have havg := h.cfg.avg_frames
  dsimp only at hdim havg
  refine h.goOn i fun q hq => ?_
  obtain rfl : _ = q := by simpa using hq
  exact ⟨by show 1 ≤ s.cfg.signal_dim; omega, by show 1 ≤ s.cfg.avg_frames ∧ s.cfg.avg_frames ≤ 60; omega⟩

theorem Kept.check (h : Kept A s) {i : ℕ} {q : Request D} (hmade : s.submitting i = .made q) :
    Kept A (s.check i q) := by
  refine h.goOn i fun q' hq => ?_
  split_ifs at hq with hbusy
  · simp at hq
  · obtain rfl : q = q' := by simpa using hq
    exact h.submitting i q (Or.inl hmade)

/-! ### The loop -/

theorem begin_cases (A : Doubles D) (h : IqHeader) (c : Config D) (alloc manifold : Bool)
    (s : Settings D) :
    (∃ xspec, s.begin A h c alloc manifold = { s with xspec := xspec, phase := .idle }) ∨
      ∃ xspec, xspec.Ready (asInt h.active_ant_chs).toNat ∧
        s.begin A h c alloc manifold = { s with xspec := xspec, phase := .measuring c } := by
  unfold Settings.begin
  split
  next xspec _ _ => exact Or.inl ⟨xspec, rfl⟩
  next xspec hprepare =>
    cases manifold with
    | false => exact Or.inl ⟨xspec, rfl⟩
    | true => exact Or.inr ⟨xspec, XSpec.ready_of_prepare hprepare, rfl⟩

theorem Kept.begin (h : Kept A s) {hdr : IqHeader} {c : Config D} (alloc manifold : Bool)
    (hc : c.Usable A) (hleast : 3 ≤ asInt hdr.active_ant_chs)
    (hdim : s.cur.signal_dim < asInt hdr.active_ant_chs) :
    Kept A (s.begin A hdr c alloc manifold) := by
  rcases begin_cases A hdr c alloc manifold s with ⟨xspec, heq⟩ | ⟨xspec, hready, heq⟩
  · rw [heq]
    exact { h with
      adjusting := fun hdr c hp => by simp at hp
      measuring := fun c hp => by simp at hp }
  · rw [heq]
    refine { h with
      adjusting := fun hdr c hp => by simp at hp
      measuring := fun c' hp => ?_ }
    obtain rfl : c = c' := by simpa using hp
    have hm := hready.channels
    have hmost := hready.most
    dsimp only
    exact ⟨hc, by omega, by omega, by omega⟩

theorem Kept.pickUp (h : Kept A s) (hdr : IqHeader) (alloc manifold : Bool)
    (htaken : s.phase = .taken)
    (hdim : unfit A s.req hdr = false → s.req.signal_dim < asInt hdr.active_ant_chs) :
    Kept A (s.pickUp A hdr alloc manifold) := by
  have hidle : Kept A { s with cur := s.req, applied := false, phase := .idle } :=
    { h with
      cur := h.req
      adjusting := fun hdr c hp => by simp at hp
      measuring := fun c hp => by simp at hp }
  unfold Settings.pickUp
  dsimp only
  split
  · exact hidle
  next hfit =>
    have hfit : unfit A s.req hdr = false := by simpa using hfit
    have hlt := hdim hfit
    have hleast : 3 ≤ asInt hdr.active_ant_chs := by
      have hthree : ¬hdr.active_ant_chs < 3 := by
        simp only [unfit, Bool.or_eq_false_iff, decide_eq_false_iff_not] at hfit
        exact hfit.2
      have hsignal := h.req.signal_dim
      have hval := asInt_toNat (u := hdr.active_ant_chs) (by omega)
      rw [UInt32.lt_iff_toNat_lt] at hthree
      have h3 : (3 : UInt32).toNat = 3 := rfl
      omega
    split
    · refine { hidle with
        adjusting := fun hdr' c hp => ?_
        measuring := fun c hp => by simp at hp }
      obtain ⟨rfl, rfl⟩ : hdr = hdr' ∧ s.cfg.adjust A (asInt hdr.active_ant_chs) = c := by
        simpa using hp
      exact ⟨h.cfg.adjust _, hleast, hlt⟩
    · have hcopied : Kept A { s with cur := s.req, applied := false } :=
        { h with
          cur := h.req
          adjusting := fun hdr c hp => by simp [htaken] at hp
          measuring := fun c hp => by simp [htaken] at hp }
      exact hcopied.begin alloc manifold h.cfg hleast hlt

/-- An adjustment is written back that changes nothing, or is written over by a configuration that is
yet to be applied. -/
theorem Kept.patch (h : Kept A s) {hdr : IqHeader} {c : Config D} (alloc manifold : Bool)
    (hadjusting : s.phase = .adjusting hdr c)
    (hsame : s.applying = [] ∨ s.applied = true → SameArray s.cfg c) :
    Kept A (s.patch A hdr c alloc manifold) := by
  obtain ⟨hc, hleast, hdim⟩ := h.adjusting hdr c hadjusting
  have hpatched : Kept A { s with
      cfg := s.cfg.withArray c
      adjustments := if s.applied then s.adjustments ++ [(s.cfg, s.cfg.withArray c)]
        else s.adjustments } := by
    refine { h with
      cfg := h.cfg.withArray c
      agree := fun hnil => ?_
      adjustments := fun p hp => ?_ }
    · obtain ⟨helements, htype, hx, hy⟩ := h.agree hnil
      obtain ⟨helements', htype', hx', hy'⟩ := hsame (Or.inl hnil)
      exact ⟨helements.trans helements', htype.trans htype', hx.trans hx', hy.trans hy'⟩
    · dsimp only at hp
      split_ifs at hp with happlied
      · rcases List.mem_append.1 hp with hp | hp
        · exact h.adjustments p hp
        · obtain ⟨helements, htype, hx, hy⟩ := hsame (Or.inr happlied)
          rw [List.mem_singleton.1 hp]
          exact ⟨helements, htype, hx, hy⟩
      · exact h.adjustments p hp
  exact hpatched.begin alloc manifold hc hleast hdim

theorem Kept.giveUp (h : Kept A s) : Kept A { s with phase := .idle } :=
  { h with
    adjusting := fun hdr c hp => by simp at hp
    measuring := fun c hp => by simp at hp }

theorem Kept.solve (h : Kept A s) {c : Config D} (hmeasuring : s.phase = .measuring c) :
    Kept A (s.solve c) := by
  obtain ⟨hc, hleast, hmost, hdim⟩ := h.measuring c hmeasuring
  exact { h.giveUp with
    solved := fun p hp => by
      rcases List.mem_append.1 hp with hp | hp
      · exact h.solved p hp
      · rw [List.mem_singleton.1 hp]
        exact solvedWith_checked h.cur hc h.cfg hleast hmost hdim }

theorem Kept.next (h : Kept A s) (e : SettingsEvent D) (hok : s.Orderly A e) : Kept A (s.next A e) := by
  unfold Settings.Orderly at hok
  unfold Settings.next
  cases e with
  | dfSetCfg p => exact h.dfSetCfg p
  | applyConfig i => exact h.applyConfig hok
  | broadcast gain_idx => exact { h with }
  | dfSubmit i center_hz bw_hz arr_idx dnum seq use_backlog =>
    dsimp only
    split
    · exact h.dfSubmit i center_hz bw_hz arr_idx dnum seq use_backlog
    · exact h
  | check i =>
    dsimp only
    split
    next q hs => exact h.check hs
    · exact h
  | write i =>
    dsimp only
    split
    next q hs =>
      have hreq : Kept A { s with req := q } := { h with req := h.submitting i q (Or.inr hs) }
      exact hreq.goOn i (by simp)
    · exact h
  | commit i =>
    dsimp only
    split
    · have hpending : Kept A { s with req_pending := true } := { h with }
      exact hpending.goOn i (by simp)
    · exact h
  | take =>
    cases hp : s.phase with
    | idle =>
      dsimp only
      split_ifs
      · exact { h with
          adjusting := fun hdr c hp => by simp at hp
          measuring := fun c hp => by simp at hp }
      · exact h
    | _ => exact h
  | pickUp hdr alloc manifold =>
    cases hp : s.phase with
    | taken => simp only [hp] at hok; exact h.pickUp hdr alloc manifold hp hok
    | _ => exact h
  | patch alloc manifold =>
    cases hp : s.phase with
    | adjusting hdr c => simp only [hp] at hok; exact h.patch alloc manifold hp hok
    | _ => exact h
  | solve =>
    cases hp : s.phase with
    | measuring c => exact h.solve hp
    | _ => exact h
  | giveUp =>
    cases hp : s.phase with
    | measuring c => exact h.giveUp
    | _ => exact h

theorem Kept.oneConfiguration (h : Kept A s) : OneConfiguration A s where
  agree hstill := h.agree hstill.applying
  broadcast hstill gain_idx := by
    obtain ⟨helements, htype, hx, hy⟩ := h.agree hstill.applying
    simp [PktDfConfig.array, Settings.dfGetCfg, cfgToPkt, helements, htype, hx, hy]
  adjustments := h.adjustments
  solved p hp := Config.validate_iff.2 (h.solved p hp)

/-! ## Runs -/

/-- In every run, whatever the packets, requests and frames: if every event is orderly, HOST has one
configuration in every state reached. -/
theorem oneConfiguration_of_run (A : Doubles D) (c : Config D) (hc : c.validate A = true)
    (events : List (SettingsEvent D))
    (hok : ∀ es e, es ++ [e] <+: events → (settingsAfter A c es).Orderly A e) :
    ∀ es, es <+: events → OneConfiguration A (settingsAfter A c es) := by
  intro es hes
  have hall := Lib.forall_prefix_foldl
    (fun s e (h : Kept A s) (hok : s.Orderly A e) => h.next e hok) (kept_initial (Config.validate_iff.1 hc)) hok
  exact (hall es hes).oneConfiguration

/-- The defaults, with short spectra. -/
def shortConfig : Config ℚ := { Config.default exact with fft_size := 256 }

/-- A channel of 200 kHz at 700.5 MHz is asked for and the request picked up, with a frame of so many
channels. -/
def measuredWith (active_ant_chs : UInt32) : List (SettingsEvent ℚ) :=
  [.dfSubmit 0 700500000 200000 0 1 1 false, .check 0, .write 0, .commit 0, .take,
    .pickUp (frameAt 700000000 active_ant_chs).hdr true true]

/-- The heading is set, and while this is applied another thread asks, too. -/
def turnedMeanwhile : List (SettingsEvent ℚ) :=
  [.dfSetCfg (cfgToPkt exact { shortConfig with heading_deg := 90 }),
    .dfSubmit 1 701000000 100000 1 2 2 false, .applyConfig 0]

theorem orderly_pickUp {h : IqHeader} (alloc manifold : Bool)
    (hdim : s.req.signal_dim < asInt h.active_ant_chs) :
    s.Orderly A (.pickUp h alloc manifold) := by
  unfold Settings.Orderly
  cases s.phase with
  | taken => exact fun _ => hdim
  | _ => trivial

/-- With as many channels as elements a request is measured and solved. -/
theorem oneConfiguration_of_run_five :
    OneConfiguration exact
      (settingsAfter exact shortConfig (turnedMeanwhile ++ measuredWith 5 ++ [.solve])) := by
  refine oneConfiguration_of_run exact shortConfig (by decide +kernel)
    (turnedMeanwhile ++ measuredWith 5 ++ [.solve]) ?_ _ List.prefix_rfl
  refine Lib.forall_prefix_cons trivial (Lib.forall_prefix_cons trivial
    (Lib.forall_prefix_cons (fun _ => rfl) (Lib.forall_prefix_cons trivial
    (Lib.forall_prefix_cons trivial (Lib.forall_prefix_cons trivial
    (Lib.forall_prefix_cons trivial (Lib.forall_prefix_cons trivial
    (Lib.forall_prefix_cons ?_ (Lib.forall_prefix_cons trivial Lib.forall_prefix_nil)))))))))
  have hdim : (settingsAfter exact shortConfig
      (turnedMeanwhile ++ (measuredWith 5).take 5)).req.signal_dim = 1 := by decide +kernel
  exact orderly_pickUp true true (hdim.trans_lt (by decide))

/-! ## Another number of channels -/

/-- With four channels for five elements the engine has four from then on, and HOST broadcasts five. -/
theorem not_oneConfiguration_of_channels :
    ¬∀ c : Config ℚ, c.validate exact = true → ∀ events,
      OneConfiguration exact (settingsAfter exact c events) := by
  intro h
  have hone := h shortConfig (by decide +kernel) (measuredWith 4 ++ [.patch true true])
  have hnone : (settingsAfter exact shortConfig (measuredWith 4 ++ [.patch true true])).applying.isEmpty =
      true := by decide +kernel
  have hbetween : (settingsAfter exact shortConfig
      (measuredWith 4 ++ [.patch true true])).phase.between = false := by decide +kernel
  have hkst : (settingsAfter exact shortConfig
      (measuredWith 4 ++ [.patch true true])).kst_cfg.elements = 5 := by decide +kernel
  have hcfg : (settingsAfter exact shortConfig
      (measuredWith 4 ++ [.patch true true])).cfg.elements = 4 := by decide +kernel
  have helements := (hone.agree ⟨List.isEmpty_iff.1 hnone, hbetween⟩).elements
  rw [hkst, hcfg] at helements
  exact absurd helements (by decide)

end Bewe.Df
