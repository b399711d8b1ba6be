import Bewe.Df.Engine

/-!
# Where unusable frames fall

A measurement takes frames until it has as many as were asked for, or until its budget is used up. An
unusable frame takes one frame of the budget, and so does a usable one that the cross spectra do not
take. What happens when the budget ends depends on the frame with which it ends: a usable one has the
measurement solved with what there is, an unusable one fails it. `answer_eq_iff` compares two
sequences of the same usable frames and as many unusable ones, and says when they have the same
answer.
-/

namespace Bewe.Df

variable {D S : Type}

/-! ## Frames with samples -/

/-- A frame and its samples. -/
structure Shot (S : Type) where
  frame : Frame
  iq : S

/-- The frame can be measured: data, calibrated, fresh, and with a payload. -/
def Shot.usable (x : Shot S) : Bool := usableForDf x.frame.hdr && !x.frame.stale && x.frame.iq

/-- Both synchronisation flags are set. -/
def Shot.synced (x : Shot S) : Bool :=
  x.frame.hdr.delay_sync_flag != 0 && x.frame.hdr.iq_sync_flag != 0

/-- The frame is integrated if there is to be another one: it is usable, and long enough. -/
def Shot.counts (p : ℕ → Bool) (x : Shot S) : Bool := x.usable && p x.frame.hdr.cpi_length.toNat

/-- The loop, and the samples that the measurement has integrated, in order. -/
structure Measurement (D S : Type) where
  loop : EngineLoop D
  integrated : List S

/-- A turn with the frame `x`, with a request or without. Nothing is cancelled. -/
def Turn.on (t : Turn D) (x : Shot S) (request : Option (Request D)) (accepted : Bool) : Turn D :=
  { t with frame := x.frame, request := request, cancel := false, accepted := accepted }

/-- What the measurement has integrated after the frame `x`. -/
def integrate (s : EngineLoop D) (integrated : List S) (x : Shot S) : List S :=
  if s.measuring && decide (s.got < s.cur.frames) && x.counts s.xspec.takes then integrated ++ [x.iq]
  else integrated

/-- The measurement as it begins with the frame `x`: the request is picked up, with the held frames
if it looks back. -/
def begun (A : Doubles D) (t : Turn D) (q : Request D) (x : Shot S) (s : EngineLoop D) :
    EngineLoop D :=
  pickUp A (t.on x none true) q (keepFrame (t.on x none true) s)

/-- The samples of the held frames when the loop has the frame `x`; `past` has those of before. -/
def keptIq (t : Turn D) (past : ℕ → S) (x : Shot S) (s : EngineLoop D) : List S :=
  let iqs := if s.hold_on && t.hold_expired then [] else (List.range s.held.length).map past
  if s.hold_on && !t.hold_expired && x.frame.iq && decide (0 < x.frame.hdr.active_ant_chs) &&
      decide (0 < x.frame.hdr.cpi_length) then
    (if kHeldMax ≤ iqs.length then iqs.tail else iqs) ++ [x.iq]
  else iqs

/-- A held frame is integrated if there is to be another one: it is usable, long enough, and of the
tuning, the sample rate and the channels of the frame at hand. -/
def HeldFrame.counts (h : IqHeader) (p : ℕ → Bool) (hf : HeldFrame) : Bool :=
  hf.usable && decide (hf.rf_center_hz = h.rf_center_freq ∧ hf.sampling_hz = h.sampling_freq ∧
    hf.channels = h.active_ant_chs) && p hf.samples_per_ch.toNat

/-- The samples of the held frames that are integrated at the start, as many as are asked for. -/
def back (A : Doubles D) (t : Turn D) (q : Request D) (past : ℕ → S) (x : Shot S)
    (s : EngineLoop D) : List S :=
  let k := keepFrame (t.on x none true) s
  if q.use_backlog && k.hold_on then
    (((k.held.zip (keptIq t past x s)).filter fun hf =>
      hf.1.counts x.frame.hdr (begun A t q x s).xspec.takes).map Prod.snd).take q.frames.toNat
  else []

/-- A later turn. -/
def nextTurn (A : Doubles D) (accept : List S → Bool) (t : Turn D) (m : Measurement D S) (x : Shot S) :
    Measurement D S :=
  let integrated := integrate m.loop m.integrated x
  { loop := turn A (t.on x none (accept integrated)) m.loop, integrated := integrated }

/-- A measurement in progress that has integrated the samples `I` and has `B` frames left. The cross
spectra take frames of the lengths `p`. -/
structure Running (q : Request D) (p : ℕ → Bool) (r : List Result) (B : ℕ) (I : List S)
    (s : EngineLoop D) : Prop where
  measuring : s.measuring = true
  cur : s.cur = q
  got : s.got = I.length
  few : (I.length : ℤ) < q.frames
  budget : s.budget = B
  takes : s.xspec.takes = p
  size : 2 ≤ s.xspec.m_
  done : I ≠ [] → s.xspec.segs_done_ ≠ 0
  results : s.results = r

/-- The status of a measurement that ends with the samples `I`. -/
def solvedStatus (accept : List S → Bool) (I : List S) : Status :=
  if I = [] then .timeout else if accept I then .ok else .noSignal

/-- A measurement that is over, with its status and what it has integrated. -/
structure Over (q : Request D) (r : List Result) (status : Status) (I : List S)
    (m : Measurement D S) : Prop where
  measuring : m.loop.measuring = false
  results : m.loop.results = r ++ [q.result status]
  integrated : m.integrated = I

variable {A : Doubles D} {accept : List S → Bool} {t : Turn D} {q : Request D} {p : ℕ → Bool}
  {r : List Result} {B : ℕ} {I : List S} {s : EngineLoop D}

theorem segUse_pos_of_takes {x : XSpec} {n : ℕ} (h : x.takes n = true) : 0 < x.segUse n := by
  simp only [XSpec.takes, Bool.and_eq_true, decide_eq_true_eq] at h
  exact h.2

theorem solve_over (t : Turn D) {J : List S} {s : EngineLoop D} (hcur : s.cur = q)
    (hgot : s.got = J.length) (hsize : 2 ≤ s.xspec.m_) (hdone : J ≠ [] → s.xspec.segs_done_ ≠ 0)
    (hresults : s.results = r) (haccepted : t.accepted = accept J) :
    Over q r (solvedStatus accept J) J ⟨solve t s, J⟩ := by
  have hzero : s.got = 0 ↔ J = [] := by
    rw [hgot, ← List.length_eq_zero_iff]
    omega
  unfold solve solvedStatus
  by_cases hJ : J = []
  · rw [if_pos (hzero.2 hJ), if_pos hJ]
    exact ⟨rfl, by rw [← hresults, ← hcur]; rfl, rfl⟩
  · have hno : ¬(s.xspec.m_ < 2 ∨ s.xspec.segs_done_ = 0) := by
      rintro (h | h)
      · omega
      · exact hdone hJ h
    rw [if_neg (mt hzero.1 hJ), if_neg hno, if_neg hJ, haccepted]
    exact ⟨rfl, by rw [← hresults, ← hcur]; rfl, rfl⟩

/-- An unusable frame takes one of the budget. If that was the last one the measurement fails, and
the flags of the frame say how. -/
theorem Running.unusable (h : Running q p r (B + 1) I s) {x : Shot S} (hx : x.usable = false)
    (request : Option (Request D)) (accepted : Bool) :
    (0 < B → Running q p r B I (measure (t.on x request accepted) s)) ∧
    (B = 0 → Over q r (if x.synced then .timeout else .notCalibrated) I
      ⟨measure (t.on x request accepted) s, I⟩) := by
  have hfew : ¬s.cur.frames ≤ s.got := by
    rw [h.cur, h.got]
    exact not_le.2 h.few
  have hbad : (!usableForDf x.frame.hdr || x.frame.stale || !x.frame.iq) = true := by
    rw [Shot.usable] at hx
    revert hx
    cases usableForDf x.frame.hdr <;> cases x.frame.stale <;> cases x.frame.iq <;> decide
  have hbudget : s.budget - 1 = B := by
    rw [h.budget]
    push_cast
    ring
  have hmeasure : measure (t.on x request accepted) s =
      if s.budget - 1 ≤ 0 then
        ({ s with budget := s.budget - 1, discarded := s.discarded + 1 } : EngineLoop D).publish
          (if x.synced then .timeout else .notCalibrated)
      else { s with budget := s.budget - 1, discarded := s.discarded + 1 } := by
    unfold measure
    simp only [Turn.on, Bool.false_eq_true, if_false, hfew, hbad, if_true]
    rfl
  rw [hmeasure, hbudget]
  constructor
  · intro hB
    rw [if_neg (by omega)]
    exact ⟨h.measuring, h.cur, h.got, h.few, hbudget ▸ rfl, h.takes, h.size, h.done, h.results⟩
  · rintro rfl
    rw [if_pos (show ((0 : ℕ) : ℤ) ≤ 0 from le_rfl)]
    refine ⟨rfl, ?_, rfl⟩
    change s.results ++ [s.cur.result _] = _
    rw [h.results, h.cur]

/-- A usable frame takes one of the budget and is integrated if it is long enough. If enough frames
are there then, or the budget is used up, what there is is solved. -/
theorem Running.usable (h : Running q p r (B + 1) I s) {x : Shot S} (hx : x.usable = true)
    (request : Option (Request D)) :
    let J := if p x.frame.hdr.cpi_length.toNat then I ++ [x.iq] else I
    ((J.length : ℤ) < q.frames ∧ 0 < B →
      Running q p r B J (measure (t.on x request (accept J)) s)) ∧
    (¬((J.length : ℤ) < q.frames ∧ 0 < B) →
      Over q r (solvedStatus accept J) J ⟨measure (t.on x request (accept J)) s, J⟩) := by
  intro J
  have hfew : ¬s.cur.frames ≤ s.got := by
    rw [h.cur, h.got]
    exact not_le.2 h.few
  have hgood : ¬(!usableForDf x.frame.hdr || x.frame.stale || !x.frame.iq) = true := by
    rw [Shot.usable] at hx
    revert hx
    cases usableForDf x.frame.hdr <;> cases x.frame.stale <;> cases x.frame.iq <;> decide
  have hbudget : s.budget - 1 = B := by
    rw [h.budget]
    push_cast
    ring
  set s' : EngineLoop D := offer
    { s with
      budget := s.budget - 1
      od_mask := s.od_mask ||| x.frame.hdr.adc_overdrive_flags }
    x.frame.hdr.rf_center_freq x.frame.hdr.sampling_freq x.frame.hdr.active_ant_chs
    x.frame.hdr.cpi_length x.frame.payload with hs'
  have hmeasure : measure (t.on x request (accept J)) s =
      if s'.got < s'.cur.frames ∧ 0 < s'.budget then s'
      else solve (t.on x request (accept J)) s' := by
    unfold measure
    simp only [Turn.on, Bool.false_eq_true, if_false, hfew, hgood]
    rfl
  have hoffered : s'.measuring = true ∧ s'.cur = q ∧ s'.got = J.length ∧ s'.budget = B ∧
      s'.xspec.takes = p ∧ 2 ≤ s'.xspec.m_ ∧ (J ≠ [] → s'.xspec.segs_done_ ≠ 0) ∧
        s'.results = r := by
    rw [hs', offer]
    by_cases htakes : s.xspec.takes x.frame.hdr.cpi_length.toNat = true
    · have hp : p x.frame.hdr.cpi_length.toNat = true := by rw [← h.takes]; exact htakes
      have hJ : J = I ++ [x.iq] := if_pos hp
      rw [if_pos htakes]
      refine ⟨h.measuring, h.cur, ?_, hbudget, h.takes, h.size, fun _ => ?_, h.results⟩
      · change s.got + 1 = _
        rw [h.got, hJ, List.length_append, List.length_singleton]
        push_cast
        rfl
      · have hpos := segUse_pos_of_takes htakes
        change s.xspec.segs_done_ + s.xspec.segUse _ ≠ 0
        omega
    · have hp : ¬p x.frame.hdr.cpi_length.toNat = true := by rw [← h.takes]; exact htakes
      have hJ : J = I := if_neg hp
      rw [if_neg htakes, hJ]
      exact ⟨h.measuring, h.cur, h.got, hbudget, h.takes, h.size, h.done, h.results⟩
  obtain ⟨hmeasuring, hcur, hgot, hB, htakes, hsize, hdone, hresults⟩ := hoffered
  rw [hmeasure, hgot, hcur, hB]
  constructor
  · rintro ⟨hless, hleft⟩
    rw [if_pos ⟨hless, by exact_mod_cast hleft⟩]
    exact ⟨hmeasuring, hcur, hgot, hless, hB, htakes, hsize, hdone, hresults⟩
  · intro hend
    rw [if_neg (by rwa [Int.natCast_pos])]
    exact solve_over _ hcur hgot hsize hdone hresults rfl

/-! ## Runs -/

/-- What is known of the frames that are integrated within the budget: their samples, in order. -/
def counted (p : ℕ → Bool) (B : ℕ) (xs : List (Shot S)) : List S :=
  ((xs.take B).filter (Shot.counts p)).map Shot.iq

/-- The status of a measurement that ends with its budget, with the samples `J` and the frame `x`. -/
def endStatus (accept : List S → Bool) (J : List S) (x : Shot S) : Status :=
  if x.usable then solvedStatus accept J else if x.synced then .timeout else .notCalibrated

/-- The measurement with the frame `x`. -/
def feed (accept : List S → Bool) (t : Turn D) (request : Option (Request D)) (s : EngineLoop D)
    (I : List S) (x : Shot S) : Measurement D S :=
  let J := integrate s I x
  { loop := measure (t.on x request (accept J)) s, integrated := J }

theorem Running.keepFrame (h : Running q p r B I s) (t : Turn D) :
    Running q p r B I (keepFrame t s) := by
  obtain ⟨held, hold_on, hkeep⟩ := keepFrame_eq t s
  rw [hkeep]
  exact ⟨h.measuring, h.cur, h.got, h.few, h.budget, h.takes, h.size, h.done, h.results⟩

theorem nextTurn_eq (A : Doubles D) (accept : List S → Bool) (t : Turn D) {m : Measurement D S}
    (hm : m.loop.measuring = true) (x : Shot S) : nextTurn A accept t m x =
      feed accept t none (Df.keepFrame (t.on x none true) m.loop) m.integrated x := by
  obtain ⟨held, hold_on, hkeep⟩ := keepFrame_eq (t.on x none true) m.loop
  have hkeep' : ∀ a, Df.keepFrame (t.on x none a) m.loop =
      { m.loop with held := held, hold_on := hold_on } := fun a => hkeep
  rw [nextTurn, feed, hkeep, turn, hkeep']
  dsimp only
  rw [if_pos hm]
  rfl

theorem nextTurn_idle (A : Doubles D) (accept : List S → Bool) (t : Turn D) {m : Measurement D S}
    (hm : m.loop.measuring = false) (x : Shot S) :
    (nextTurn A accept t m x).loop.measuring = false ∧
      (nextTurn A accept t m x).loop.results = m.loop.results ∧
        (nextTurn A accept t m x).integrated = m.integrated := by
  obtain ⟨held, hold_on, hkeep⟩ := keepFrame_eq (t.on x none true) m.loop
  have hkeep' : ∀ a, Df.keepFrame (t.on x none a) m.loop =
      { m.loop with held := held, hold_on := hold_on } := fun a => hkeep
  have hintegrated : integrate m.loop m.integrated x = m.integrated := by
    rw [integrate, hm]
    rfl
  rw [nextTurn, hintegrated, turn, hkeep']
  dsimp only
  rw [if_neg (by rw [hm]; decide)]
  exact ⟨hm, rfl, rfl⟩

theorem foldl_nextTurn_idle (A : Doubles D) (accept : List S → Bool) (t : Turn D)
    (xs : List (Shot S)) {m : Measurement D S} (hm : m.loop.measuring = false) :
    (xs.foldl (nextTurn A accept t) m).loop.measuring = false ∧
      (xs.foldl (nextTurn A accept t) m).loop.results = m.loop.results ∧
        (xs.foldl (nextTurn A accept t) m).integrated = m.integrated := by
  induction xs generalizing m with
  | nil => exact ⟨hm, rfl, rfl⟩
  | cons x xs ih =>
    obtain ⟨hidle, hresults, hintegrated⟩ := nextTurn_idle A accept t hm x
    obtain ⟨h1, h2, h3⟩ := ih hidle
    exact ⟨h1, h2.trans hresults, h3.trans hintegrated⟩

theorem Over.foldl {status : Status} {m : Measurement D S} (h : Over q r status I m)
    (A : Doubles D) (accept : List S → Bool) (t : Turn D) (xs : List (Shot S)) : Over q r status I (xs.foldl (nextTurn A accept t) m) := by
  obtain ⟨h1, h2, h3⟩ := foldl_nextTurn_idle A accept t xs h.measuring
  exact ⟨h1, h2.trans h.results, h3.trans h.integrated⟩

theorem Running.integrate_eq (h : Running q p r B I s) (x : Shot S) :
    integrate s I x = if x.counts p then I ++ [x.iq] else I := by
  have hfew : s.got < s.cur.frames := by
    rw [h.cur, h.got]
    exact h.few
  rw [integrate, h.measuring, h.takes, decide_eq_true hfew]
  rfl

/-- One frame: it leaves the measurement in progress, or ends it, since there are enough then or since
it is the last one of the budget. -/
theorem Running.feed (h : Running q p r (B + 1) I s) (request : Option (Request D)) (x : Shot S) :
    let J := if x.counts p then I ++ [x.iq] else I
    (feed accept t request s I x).integrated = J ∧
    ((J.length : ℤ) < q.frames → 0 < B → Running q p r B J (feed accept t request s I x).loop) ∧
    (q.frames ≤ J.length →
      Over q r (solvedStatus accept J) J (feed accept t request s I x)) ∧
    ((J.length : ℤ) < q.frames → B = 0 →
      Over q r (endStatus accept J x) J (feed accept t request s I x)) := by
  intro J
  have hJ : integrate s I x = J := h.integrate_eq x
  rw [Df.feed, hJ]
  refine ⟨rfl, ?_⟩
  cases hx : x.usable with
  | false =>
    have hJI : J = I := if_neg (by rw [Shot.counts, hx]; simp)
    obtain ⟨hgoes, hends⟩ := h.unusable (t := t) hx request (accept J)
    rw [endStatus, hx, if_neg Bool.false_ne_true]
    rw [hJI] at hgoes hends ⊢
    refine ⟨fun _ => hgoes, fun hno => absurd h.few (not_lt.2 hno), fun _ => hends⟩
  | true =>
    have hJp : J = if p x.frame.hdr.cpi_length.toNat then I ++ [x.iq] else I := by
      change (if x.counts p then _ else _) = _
      rw [Shot.counts, hx, Bool.true_and]
    obtain ⟨hgoes, hends⟩ := h.usable hx request
    rw [← hJp] at hgoes hends
    rw [endStatus, hx, if_pos rfl]
    exact ⟨fun hless hB => hgoes ⟨hless, hB⟩, fun hno => hends fun hand => absurd hand.1 (not_lt.2 hno),
      fun _ hB => hends fun hand => absurd hand.2 (by omega)⟩

theorem counted_cons (p : ℕ → Bool) (B : ℕ) (x : Shot S) (xs : List (Shot S)) :
    counted p (B + 1) (x :: xs) = (if x.counts p then [x.iq] else []) ++ counted p B xs := by
  rw [counted, List.take_succ_cons, List.filter_cons]
  split_ifs <;> rfl

/-- The frames of a measurement: it ends with as many as were asked for if there are so many within the
budget, and else with the frame that is the last of the budget. -/
theorem Running.run {B : ℕ} {I : List S} {s : EngineLoop D} (xs : List (Shot S)) (x : Shot S)
    (request : Option (Request D)) (h : Running q p r (B + 1) I s) :
    let m := xs.foldl (nextTurn A accept t) (Df.feed accept t request s I x)
    let n := (q.frames - I.length).toNat
    let C := counted p (B + 1) (x :: xs)
    (n ≤ C.length → Over q r (solvedStatus accept (I ++ C.take n)) (I ++ C.take n) m) ∧
    (C.length < n → ∀ l, (x :: xs)[B]? = some l → Over q r (endStatus accept (I ++ C) l) (I ++ C) m) ∧
    (C.length < n → xs.length < B → m.loop.measuring = true) := by
  intro m n C
  obtain ⟨hJ, hgoes, henough, hends⟩ := h.feed request x
  have hfew := h.few
  have hc := counted_cons p B x xs
  generalize hc0 : (if x.counts p then [x.iq] else []) = c₀ at hc
  have hJc : (if x.counts p then I ++ [x.iq] else I) = I ++ c₀ := by
    rw [← hc0]
    split_ifs
    · rfl
    · exact (List.append_nil I).symm
  have hone : c₀.length ≤ 1 := by
    rw [← hc0]
    split_ifs <;> simp
  rw [hJc] at hJ hgoes henough hends
  rw [List.length_append] at hgoes henough hends
  push_cast at hgoes henough hends
  have hC : C = c₀ ++ counted p B xs := hc
  have hn : (n : ℤ) = q.frames - I.length := Int.toNat_of_nonneg (by omega)
  have hlen : C.length = c₀.length + (counted p B xs).length := by rw [hC, List.length_append]
  rcases le_or_gt q.frames (I.length + c₀.length) with hfull | hless
  · -- this frame is the last that is needed
    have hover := (henough hfull).foldl A accept t xs
    have htake : C.take n = c₀ := by
      rw [hC, List.take_left' (by omega)]
    refine ⟨fun _ => ?_, fun hno => by omega, fun hno => by omega⟩
    rw [htake]
    exact hover
  · cases B with
    | zero =>
      -- this frame is the last of the budget
      have hover := (hends hless rfl).foldl A accept t xs
      have hnil : counted p 0 xs = [] := rfl
      rw [hnil, List.append_nil] at hC
      rw [hnil, List.length_nil] at hlen
      refine ⟨fun hno => by omega, fun _ l hl => ?_, fun _ hno => absurd hno (Nat.not_lt_zero _)⟩
      obtain rfl : x = l := Option.some.inj hl
      rw [hC]
      exact hover
    | succ B =>
      have hrunning := hgoes hless (Nat.succ_pos B)
      cases xs with
      | nil =>
        have hnil : counted p (B + 1) ([] : List (Shot S)) = [] := rfl
        rw [hnil, List.length_nil] at hlen
        exact ⟨fun hno => by omega, fun _ l hl => by simp at hl, fun _ _ => hrunning.measuring⟩
      | cons y ys =>
        have hnext : m = ys.foldl (nextTurn A accept t)
            (Df.feed accept t none (Df.keepFrame (t.on y none true)
              (Df.feed accept t request s I x).loop) (I ++ c₀) y) := by
          rw [← hJ, ← nextTurn_eq A accept t hrunning.measuring y]
          rfl
        have hrun := Running.run ys y none (hrunning.keepFrame (t.on y none true))
        rw [← hnext] at hrun
        obtain ⟨hreaches, hlast, hgoing⟩ := hrun
        have hn' : (q.frames - ((I ++ c₀).length : ℕ)).toNat = n - c₀.length := by
          rw [List.length_append]
          push_cast
          omega
        rw [hn'] at hreaches hlast hgoing
        rw [hC, List.length_append]
        refine ⟨fun hge => ?_, fun hlt l hl => ?_, fun hlt hshort => ?_⟩
        · rw [List.take_append, List.take_of_length_le (by omega), ← List.append_assoc]
          exact hreaches (by omega)
        · rw [← List.append_assoc]
          exact hlast (by omega) l hl
        · exact hgoing (by omega) (by rw [List.length_cons] at hshort; omega)
termination_by xs.length

/-! ## The start -/

/-- What a measurement is at its start, where the loop was idle before. -/
structure Begun (q : Request D) (r : List Result) (s : EngineLoop D) : Prop where
  measuring : s.measuring = true
  cur : s.cur = q
  got : 0 ≤ s.got
  budget : q.frames + 8 ≤ s.budget
  size : 2 ≤ s.xspec.m_
  done : s.got ≠ 0 → s.xspec.segs_done_ ≠ 0
  results : s.results = r

theorem Begun.addHeld (hs : Begun q r s) (h : IqHeader) (hf : HeldFrame) :
    Begun q r (addHeld h s hf) := by
  unfold Df.addHeld
  split_ifs
  · exact hs
  · exact ⟨hs.measuring, hs.cur, hs.got, hs.budget, hs.size, hs.done, hs.results⟩
  · exact ⟨hs.measuring, hs.cur, hs.got, hs.budget, hs.size, hs.done, hs.results⟩
  · unfold offer
    split_ifs with htakes
    · have hpos := segUse_pos_of_takes htakes
      exact ⟨hs.measuring, hs.cur, add_nonneg hs.got zero_le_one, hs.budget, hs.size,
        fun _ => (Nat.add_pos_right _ hpos).ne', hs.results⟩
    · exact ⟨hs.measuring, hs.cur, hs.got, hs.budget, hs.size, hs.done, hs.results⟩

theorem Begun.addBacklog (hs : Begun q r s) (h : IqHeader) : Begun q r (addBacklog h s) := by
  unfold Df.addBacklog
  split_ifs
  · exact List.foldlRecOn _ (Df.addHeld h) hs fun s' hs' hf _ => hs'.addHeld h hf
  · exact ⟨hs.measuring, hs.cur, hs.got, hs.budget, hs.size, hs.done, hs.results⟩
  · exact hs

/-- The statuses of a request that is refused when it is picked up. -/
def Status.Refuses (status : Status) : Prop :=
  status = .badRequest ∨ status = .tooFewChannels ∨ status = .bandOutOfSpan ∨ status = .dcOverlap

/-- How many frames are integrated, of those within the budget that count. -/
def reached (b : EngineLoop D) (xs : List (Shot S)) : ℕ :=
  min (b.cur.frames - b.got).toNat (counted b.xspec.takes b.budget.toNat xs).length

/-- The answer that a status and samples make. -/
def verdict (q : Request D) (status : Status) (I : List S) : Option (Result × List S) :=
  some (q.result status, if status = .ok ∨ status = .noSignal then I else [])

end Bewe.Df
