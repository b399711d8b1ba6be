import Bewe.EmitterDb.Jsonl
import Bewe.Lib.Compare
import Bewe.Lib.Layout
import Bewe.Lib.Tail

/-!
# The recorder behind the squelch

`maybe_rec_audio` and `maybe_rec_iq` of `channel.hpp`, which get every sample of a channel with the
state of its gate. One that is kept goes to a buffer, and the buffer to the file when it is full.
Both switch between `SQR_IDLE`, `SQR_RECORDING` and `SQR_TAIL`, and count down the samples of the
tail from `tail_samples`, one second.

The sample at which the gate closes sets the counter and is kept, and then as many more as the
counter says. So the tail has one sample more than a second: what is written is what a tail of
`tail_samples + 1` samples selects (`AudioRec.drained`, `IqRec.drained`). That is what a second
selects as long as the gate never stays closed for longer (`kept_iff`).
-/

namespace Bewe.Recorder

open Lib

/-! ## Samples -/

/-- A `float`. -/
abbrev Level := Fp 24

/-- `(int16_t)(v<-1.f?-32767:v>1.f?32767:(int)(v*32767.f))`; the conversion of a NaN to an `int`
gives the least one, whose lower half is zero. -/
def toS16 : Level → Int16
  | .fin q _ =>
    if q < -1 then -32767
    else if 1 < q then 32767
    else Int16.ofInt (EmitterDb.truncate (roundBits 24 (q * 32767)))
  | .inf neg => if neg then -32767 else 32767
  | .nan _ => 0

/-- The bytes of samples. -/
def pcm (buf : List Int16) : Bytes := buf.flatMap fun s => leBytes 2 s.toBitVec.toNat

@[simp] theorem pcm_append (a b : List Int16) : pcm (a ++ b) = pcm a ++ pcm b :=
  List.flatMap_append

/-- `REC_BUF_FRAMES` -/
def REC_BUF_FRAMES : ℕ := 2048

/-! ## The squelch -/

/-- `SqRecState` -/
inductive SqRecState
  | SQR_IDLE
  | SQR_RECORDING
  | SQR_TAIL
  deriving DecidableEq

open SqRecState

/-- The `switch` of both recorders: the new state, the counter, and whether the sample is kept, and
then whether it is one of the tail (`write_silence`). -/
def switch (tail_samples : ℕ) (state : SqRecState) (tail_remain : ℕ) (gate_open : Bool) :
    SqRecState × ℕ × Option Bool :=
  match state with
  | SQR_IDLE =>
    if !gate_open then (SQR_IDLE, tail_remain, none)
    else (SQR_RECORDING, tail_remain, some false)
  | SQR_RECORDING =>
    -- the sample at which the gate closes is written and not counted
    if !gate_open then (SQR_TAIL, tail_samples, some true)
    else (SQR_RECORDING, tail_remain, some false)
  | SQR_TAIL =>
    if gate_open then (SQR_RECORDING, tail_remain, some false)
    else if tail_remain = 0 then (SQR_IDLE, tail_remain, none)
    else (SQR_TAIL, tail_remain - 1, some true)

/-- The state is that of a gate with this history: idle where it has been closed for longer than the
tail and the sample that starts it. -/
def Tracks (T : ℕ) (state : SqRecState) (tail_remain : ℕ) (hist : List Bool) : Prop :=
  match state with
  | SQR_IDLE => ¬Held (T + 1) hist
  | SQR_RECORDING => ∃ r, hist = true :: r
  | SQR_TAIL => ∃ k r, tail_remain + k = T ∧ hist = List.replicate (k + 1) false ++ true :: r

theorem switch_spec {T : ℕ} {state : SqRecState} {tail_remain : ℕ} {hist : List Bool}
    (h : Tracks T state tail_remain hist) (gate_open : Bool) :
    let next := switch T state tail_remain gate_open
    Tracks T next.1 next.2.1 (gate_open :: hist) ∧
      next.2.2 = if Held (T + 1) (gate_open :: hist) then some !gate_open else none := by
  dsimp only
  cases gate_open with
  | true =>
    have hnext : switch T state tail_remain true = (SQR_RECORDING, tail_remain, some false) := by
      cases state <;> rfl
    rw [hnext, if_pos (held_cons_true _ _)]
    exact ⟨⟨hist, rfl⟩, rfl⟩
  | false =>
    cases state with
    | SQR_IDLE =>
      have hidle : ¬Held (T + 1) (false :: hist) := fun hheld =>
        h (held_succ_cons_false.1 hheld).succ
      exact ⟨hidle, (if_neg hidle).symm⟩
    | SQR_RECORDING =>
      obtain ⟨r, rfl⟩ := h
      have hheld : Held (T + 1) (false :: true :: r) := (held_closed_iff (T + 1) 1 r).2 (by omega)
      exact ⟨⟨0, r, rfl, rfl⟩, (if_pos hheld).symm⟩
    | SQR_TAIL =>
      obtain ⟨k, r, hk, rfl⟩ := h
      have hhist : false :: (List.replicate (k + 1) false ++ true :: r) =
          List.replicate (k + 2) false ++ true :: r := rfl
      have hheld := held_closed_iff (T + 1) (k + 2) r
      rcases Nat.eq_zero_or_pos tail_remain with rfl | hpos
      · have hidle : ¬Held (T + 1) (List.replicate (k + 2) false ++ true :: r) := by
          rw [hheld]
          omega
        rw [hhist, if_neg hidle]
        exact ⟨hidle, rfl⟩
      · rw [hhist, if_pos (hheld.2 (by omega)), switch, if_neg (by decide), if_neg hpos.ne']
        have hdown : tail_remain - 1 + (k + 1) = T := by omega
        exact ⟨⟨k + 1, r, hdown, rfl⟩, rfl⟩

/-! ## Audio -/

/-- What `Channel` has for the recorder of audio; `audio_rec_fp` is what the file has behind its
header. -/
structure AudioRec where
  dem_paused : Bool
  audio_rec_on : Bool
  audio_rec_fp : Option Bytes
  audio_rec_frames : ℕ
  audio_rec_sr : ℕ
  audio_rec_buf : List Int16
  sqr_state : SqRecState
  sqr_tail_remain : ℕ

namespace AudioRec

/-- What a recorder is started with. -/
def started (dem_paused : Bool) (sr : ℕ) : AudioRec where
  dem_paused := dem_paused
  audio_rec_on := true
  audio_rec_fp := some []
  audio_rec_frames := 0
  audio_rec_sr := sr
  audio_rec_buf := []
  sqr_state := SQR_IDLE
  sqr_tail_remain := 0

/-- `maybe_rec_audio` -/
def maybeRecAudio (ch : AudioRec) (out : Level) (gate_open : Bool) : AudioRec :=
  if !ch.audio_rec_on then ch
  else
    match ch.audio_rec_fp with
    | none => ch
    | some fp =>
      if ch.dem_paused then ch
      else
        let next := switch ch.audio_rec_sr ch.sqr_state ch.sqr_tail_remain gate_open
        let ch := { ch with sqr_state := next.1, sqr_tail_remain := next.2.1 }
        match next.2.2 with
        | none => ch
        | some _ =>
          let buf := ch.audio_rec_buf ++ [toS16 out]
          let ch := { ch with audio_rec_buf := buf, audio_rec_frames := ch.audio_rec_frames + 1 }
          if REC_BUF_FRAMES ≤ buf.length then
            { ch with audio_rec_fp := some (fp ++ pcm buf), audio_rec_buf := [] }
          else ch

/-- `audio_rec_drain` -/
def audioRecDrain (ch : AudioRec) : AudioRec :=
  { ch with
    audio_rec_fp := ch.audio_rec_fp.map (· ++ pcm ch.audio_rec_buf)
    audio_rec_buf := [] }

end AudioRec

/-- What happens to the recorder of audio: a sample with the state of the gate, Holding, and a flush
of the buffer. -/
inductive AudioEvent
  | sample (out : Level) (gate_open : Bool)
  | hold (paused : Bool)
  | drain

/-- What an event does. -/
def AudioRec.step (ch : AudioRec) : AudioEvent → AudioRec
  | .sample out gate_open => ch.maybeRecAudio out gate_open
  | .hold paused => { ch with dem_paused := paused }
  | .drain => ch.audioRecDrain

/-- The samples that arrive while the channel is not paused. -/
def unpaused : Bool → List AudioEvent → List (Level × Bool)
  | _, [] => []
  | paused, .sample out gate_open :: es =>
    if paused then unpaused paused es else (out, gate_open) :: unpaused paused es
  | _, .hold paused :: es => unpaused paused es
  | paused, .drain :: es => unpaused paused es

/-- What is kept of samples with a tail of `T` samples. -/
def audioKept (T : ℕ) : List Bool → List (Level × Bool) → List Int16 :=
  selected T (some ∘ Prod.snd) (toS16 ∘ Prod.fst) (toS16 ∘ Prod.fst)

theorem audioKept_cons (T : ℕ) (hist : List Bool) (x : Level × Bool) (xs : List (Level × Bool)) :
    audioKept T hist (x :: xs) = audioKept T hist [x] ++ audioKept T (x.2 :: hist) xs := by
  have hgate : (some ∘ Prod.snd) x = some x.2 := rfl
  exact selected_cons_of_some hgate hist xs

namespace AudioRec

/-- The recorder has its file, has written samples to it or to the buffer, and is in the state of a
gate with this history. -/
structure Kept (ch : AudioRec) (sr : ℕ) (paused : Bool) (hist : List Bool) (written : List Int16) :
    Prop where
  rec_on : ch.audio_rec_on = true
  rec_sr : ch.audio_rec_sr = sr
  dem_paused : ch.dem_paused = paused
  content : ∃ fp, ch.audio_rec_fp = some fp ∧ fp ++ pcm ch.audio_rec_buf = pcm written
  frames : ch.audio_rec_frames = written.length
  tracks : Tracks sr ch.sqr_state ch.sqr_tail_remain hist

variable {ch : AudioRec} {sr : ℕ} {paused : Bool} {hist : List Bool} {written : List Int16}

theorem kept_started (paused : Bool) (sr : ℕ) : (started paused sr).Kept sr paused [] [] where
  rec_on := rfl
  rec_sr := rfl
  dem_paused := rfl
  content := ⟨[], rfl, rfl⟩
  frames := rfl
  tracks := by simp [Tracks, started, Held]

theorem Kept.drain (h : ch.Kept sr paused hist written) :
    ch.audioRecDrain.Kept sr paused hist written where
  rec_on := h.rec_on
  rec_sr := h.rec_sr
  dem_paused := h.dem_paused
  content := by
    obtain ⟨fp, hfp, hcontent⟩ := h.content
    refine ⟨fp ++ pcm ch.audio_rec_buf, ?_, ?_⟩
    · rw [audioRecDrain, hfp, Option.map_some]
    · rw [← hcontent]
      exact List.append_nil _
  frames := h.frames
  tracks := h.tracks

theorem Kept.maybeRecAudio_paused (h : ch.Kept sr true hist written) (out : Level)
    (gate_open : Bool) : ch.maybeRecAudio out gate_open = ch := by
  obtain ⟨fp, hfp, -⟩ := h.content
  rw [AudioRec.maybeRecAudio, h.rec_on, hfp, h.dem_paused]
  rfl

theorem Kept.maybeRecAudio (h : ch.Kept sr false hist written) (out : Level) (gate_open : Bool) :
    (ch.maybeRecAudio out gate_open).Kept sr false (gate_open :: hist)
      (written ++ audioKept (sr + 1) hist [(out, gate_open)]) := by
  obtain ⟨hon, hsr, hpaused, ⟨fp, hfp, hcontent⟩, hframes, htracks⟩ := h
  obtain ⟨htracks', hwrite⟩ := switch_spec htracks gate_open
  have hkept : audioKept (sr + 1) hist [(out, gate_open)] =
      if Held (sr + 1) (gate_open :: hist) then [toS16 out] else [] := by
    simp [audioKept, selected]
  rw [AudioRec.maybeRecAudio, hon, hfp, hsr, hpaused]
  dsimp only
  rw [if_neg (by decide), if_neg (by decide), hwrite, hkept]
  by_cases hheld : Held (sr + 1) (gate_open :: hist)
  · have hlen : ch.audio_rec_frames + 1 = (written ++ [toS16 out]).length := by
      rw [List.length_append, hframes]
      rfl
    have hbytes : fp ++ pcm (ch.audio_rec_buf ++ [toS16 out]) = pcm (written ++ [toS16 out]) := by
      rw [pcm_append, ← List.append_assoc, hcontent, pcm_append]
    rw [if_pos hheld, if_pos hheld]
    dsimp only
    split_ifs
    · exact ⟨rfl, rfl, rfl, ⟨_, rfl, (List.append_nil _).trans hbytes⟩, hlen, htracks'⟩
    · exact ⟨rfl, rfl, rfl, ⟨fp, rfl, hbytes⟩, hlen, htracks'⟩
  · rw [if_neg hheld, if_neg hheld, List.append_nil]
    exact ⟨rfl, rfl, rfl, ⟨fp, rfl, hcontent⟩, hframes, htracks'⟩

theorem Kept.foldl (h : ch.Kept sr paused hist written) (es : List AudioEvent) :
    ∃ paused' hist', (es.foldl step ch).Kept sr paused' hist'
      (written ++ audioKept (sr + 1) hist (unpaused paused es)) := by
  induction es generalizing ch paused hist written with
  | nil =>
    rw [unpaused, audioKept, selected, List.append_nil]
    exact ⟨paused, hist, h⟩
  | cons e es ih =>
    rw [List.foldl_cons]
    cases e with
    | sample out gate_open =>
      cases paused with
      | true =>
        rw [step, h.maybeRecAudio_paused]
        exact ih h
      | false =>
        have hsplit : unpaused false (.sample out gate_open :: es) =
            (out, gate_open) :: unpaused false es := rfl
        rw [hsplit, audioKept_cons, ← List.append_assoc]
        exact ih (h.maybeRecAudio out gate_open)
    | hold paused =>
      have hheld : (ch.step (.hold paused)).Kept sr paused hist written :=
        ⟨h.rec_on, h.rec_sr, rfl, h.content, h.frames, h.tracks⟩
      exact ih hheld
    | drain => exact ih h.drain

theorem drained (paused : Bool) (sr : ℕ) (es : List AudioEvent) :
    let ch := (es.foldl step (started paused sr)).audioRecDrain
    ch.audio_rec_fp = some (pcm (audioKept (sr + 1) [] (unpaused paused es))) ∧
      ch.audio_rec_frames = (audioKept (sr + 1) [] (unpaused paused es)).length := by
  obtain ⟨paused', hist', h⟩ := (kept_started paused sr).foldl es
  obtain ⟨fp, hfp, hcontent⟩ := h.drain.content
  have hfull : fp = pcm (audioKept (sr + 1) [] (unpaused paused es)) :=
    (List.append_nil fp).symm.trans hcontent
  exact ⟨hfp.trans (congrArg some hfull), h.drain.frames⟩

end AudioRec

/-! ## IQ -/

/-- What `Channel` has for the recorder of IQ samples. -/
structure IqRec where
  dem_paused : Bool
  iq_rec_on : Bool
  iq_rec_force_all : Bool
  iq_rec_fp : Option Bytes
  iq_rec_frames : ℕ
  iq_rec_sr : ℕ
  iq_rec_buf : List Int16
  iq_sqr_state : SqRecState
  iq_sqr_tail_remain : ℕ

namespace IqRec

/-- What a recorder is started with. -/
def started (dem_paused force : Bool) (sr : ℕ) : IqRec where
  dem_paused := dem_paused
  iq_rec_on := true
  iq_rec_force_all := force
  iq_rec_fp := some []
  iq_rec_frames := 0
  iq_rec_sr := sr
  iq_rec_buf := []
  iq_sqr_state := SQR_IDLE
  iq_sqr_tail_remain := 0

/-- `maybe_rec_iq` -/
def maybeRecIq (ch : IqRec) (fi fq : Level) (gate_open : Bool) : IqRec :=
  if !ch.iq_rec_on then ch
  else
    match ch.iq_rec_fp with
    | none => ch
    | some fp =>
      if ch.dem_paused then ch
      else
        let next :=
          if ch.iq_rec_force_all then (ch.iq_sqr_state, ch.iq_sqr_tail_remain, some false)
          else switch ch.iq_rec_sr ch.iq_sqr_state ch.iq_sqr_tail_remain gate_open
        let ch := { ch with iq_sqr_state := next.1, iq_sqr_tail_remain := next.2.1 }
        match next.2.2 with
        | none => ch
        | some write_silence =>
          let si := if write_silence then 0 else toS16 fi
          let sq := if write_silence then 0 else toS16 fq
          let buf := ch.iq_rec_buf ++ [si, sq]
          let frames := ch.iq_rec_frames + 1
          let flush_due := decide (frames % 65536 = 0)
          let ch := { ch with iq_rec_buf := buf, iq_rec_frames := frames }
          if REC_BUF_FRAMES * 2 ≤ buf.length ∨ flush_due then
            { ch with iq_rec_fp := some (fp ++ pcm buf), iq_rec_buf := [] }
          else ch

/-- `iq_rec_drain` -/
def iqRecDrain (ch : IqRec) : IqRec :=
  { ch with
    iq_rec_fp := ch.iq_rec_fp.map (· ++ pcm ch.iq_rec_buf)
    iq_rec_buf := [] }

end IqRec

/-- What happens to the recorder of IQ samples. -/
inductive IqEvent
  | sample (fi fq : Level) (gate_open : Bool)
  | hold (paused : Bool)
  | force (all : Bool)
  | drain

/-- What an event does. -/
def IqRec.step (ch : IqRec) : IqEvent → IqRec
  | .sample fi fq gate_open => ch.maybeRecIq fi fq gate_open
  | .hold paused => { ch with dem_paused := paused }
  | .force all => { ch with iq_rec_force_all := all }
  | .drain => ch.iqRecDrain

/-- A sample with the state of the gate, which is not looked at in force mode. -/
structure IqSample where
  fi : Level
  fq : Level
  gate : Option Bool

/-- The samples that arrive while the channel is not paused. -/
def unpausedIq : Bool → Bool → List IqEvent → List IqSample
  | _, _, [] => []
  | paused, all, .sample fi fq gate_open :: es =>
    if paused then unpausedIq paused all es
    else ⟨fi, fq, if all then none else some gate_open⟩ :: unpausedIq paused all es
  | _, all, .hold paused :: es => unpausedIq paused all es
  | paused, _, .force all :: es => unpausedIq paused all es
  | paused, all, .drain :: es => unpausedIq paused all es

/-- What is kept of samples with a tail of `T` samples, in which zeros stand for them. -/
def iqKept (T : ℕ) : List Bool → List IqSample → List (Int16 × Int16) :=
  selected T IqSample.gate (fun x => (toS16 x.fi, toS16 x.fq)) fun _ => (0, 0)

/-- The values of pairs in turn. -/
def interleaved (xs : List (Int16 × Int16)) : List Int16 := xs.flatMap fun x => [x.1, x.2]

@[simp] theorem interleaved_append (a b : List (Int16 × Int16)) :
    interleaved (a ++ b) = interleaved a ++ interleaved b := List.flatMap_append

namespace IqRec

/-- The recorder has its file, has written samples to it or to the buffer, and is in the state of a
gate with this history. -/
structure Kept (ch : IqRec) (sr : ℕ) (paused all : Bool) (hist : List Bool)
    (written : List (Int16 × Int16)) : Prop where
  rec_on : ch.iq_rec_on = true
  rec_sr : ch.iq_rec_sr = sr
  dem_paused : ch.dem_paused = paused
  force_all : ch.iq_rec_force_all = all
  content : ∃ fp, ch.iq_rec_fp = some fp ∧ fp ++ pcm ch.iq_rec_buf = pcm (interleaved written)
  frames : ch.iq_rec_frames = written.length
  tracks : Tracks sr ch.iq_sqr_state ch.iq_sqr_tail_remain hist

variable {ch : IqRec} {sr : ℕ} {paused all : Bool} {hist : List Bool}
  {written : List (Int16 × Int16)}

theorem kept_started (paused all : Bool) (sr : ℕ) :
    (started paused all sr).Kept sr paused all [] [] where
  rec_on := rfl
  rec_sr := rfl
  dem_paused := rfl
  force_all := rfl
  content := ⟨[], rfl, rfl⟩
  frames := rfl
  tracks := by simp [Tracks, started, Held]

theorem Kept.drain (h : ch.Kept sr paused all hist written) :
    ch.iqRecDrain.Kept sr paused all hist written where
  rec_on := h.rec_on
  rec_sr := h.rec_sr
  dem_paused := h.dem_paused
  force_all := h.force_all
  content := by
    obtain ⟨fp, hfp, hcontent⟩ := h.content
    refine ⟨fp ++ pcm ch.iq_rec_buf, ?_, ?_⟩
    · rw [iqRecDrain, hfp, Option.map_some]
    · rw [← hcontent]
      exact List.append_nil _
  frames := h.frames
  tracks := h.tracks

theorem Kept.maybeRecIq_paused (h : ch.Kept sr true all hist written) (fi fq : Level)
    (gate_open : Bool) : ch.maybeRecIq fi fq gate_open = ch := by
  obtain ⟨fp, hfp, -⟩ := h.content
  rw [IqRec.maybeRecIq, h.rec_on, hfp, h.dem_paused]
  rfl

theorem Kept.maybeRecIq_force (h : ch.Kept sr false true hist written) (fi fq : Level)
    (gate_open : Bool) :
    (ch.maybeRecIq fi fq gate_open).Kept sr false true hist
      (written ++ [(toS16 fi, toS16 fq)]) := by
  obtain ⟨hon, hsr, hpaused, hforce, ⟨fp, hfp, hcontent⟩, hframes, htracks⟩ := h
  have hlen : ch.iq_rec_frames + 1 = (written ++ [(toS16 fi, toS16 fq)]).length := by
    rw [List.length_append, hframes]
    rfl
  have hbytes : fp ++ pcm (ch.iq_rec_buf ++ [toS16 fi, toS16 fq]) =
      pcm (interleaved (written ++ [(toS16 fi, toS16 fq)])) := by
    rw [pcm_append, ← List.append_assoc, hcontent, interleaved_append, pcm_append]
    rfl
  rw [IqRec.maybeRecIq, hon, hfp, hsr, hpaused, hforce]
  dsimp only
  rw [if_neg (by decide), if_neg (by decide), if_pos rfl]
  dsimp only
  simp only [Bool.false_eq_true, if_false]
  by_cases hflush : REC_BUF_FRAMES * 2 ≤ (ch.iq_rec_buf ++ [toS16 fi, toS16 fq]).length ∨
      decide ((ch.iq_rec_frames + 1) % 65536 = 0) = true
  · rw [if_pos hflush]
    exact ⟨rfl, rfl, rfl, rfl, ⟨_, rfl, (List.append_nil _).trans hbytes⟩, hlen, htracks⟩
  · rw [if_neg hflush]
    exact ⟨rfl, rfl, rfl, rfl, ⟨fp, rfl, hbytes⟩, hlen, htracks⟩

theorem Kept.maybeRecIq (h : ch.Kept sr false false hist written) (fi fq : Level)
    (gate_open : Bool) :
    (ch.maybeRecIq fi fq gate_open).Kept sr false false (gate_open :: hist)
      (written ++ iqKept (sr + 1) hist [⟨fi, fq, some gate_open⟩]) := by
  obtain ⟨hon, hsr, hpaused, hforce, ⟨fp, hfp, hcontent⟩, hframes, htracks⟩ := h
  obtain ⟨htracks', hwrite⟩ := switch_spec htracks gate_open
  have hkept : iqKept (sr + 1) hist [⟨fi, fq, some gate_open⟩] =
      if Held (sr + 1) (gate_open :: hist) then
        [if gate_open then (toS16 fi, toS16 fq) else (0, 0)]
      else [] := by
    simp [iqKept, selected]
  rw [IqRec.maybeRecIq, hon, hfp, hsr, hpaused, hforce]
  dsimp only
  rw [if_neg (by decide), if_neg (by decide), if_neg (by decide), hwrite, hkept]
  by_cases hheld : Held (sr + 1) (gate_open :: hist)
  · have hlen : ch.iq_rec_frames + 1 =
        (written ++ [if gate_open then (toS16 fi, toS16 fq) else (0, 0)]).length := by
      rw [List.length_append, hframes]
      rfl
    have hbytes : fp ++ pcm (ch.iq_rec_buf ++
        [if (!gate_open) = true then 0 else toS16 fi,
          if (!gate_open) = true then 0 else toS16 fq]) =
        pcm (interleaved (written ++ [if gate_open then (toS16 fi, toS16 fq) else (0, 0)])) := by
      rw [pcm_append, ← List.append_assoc, hcontent, interleaved_append, pcm_append]
      cases gate_open <;> rfl
    rw [if_pos hheld, if_pos hheld]
    dsimp only
    by_cases hflush : REC_BUF_FRAMES * 2 ≤ (ch.iq_rec_buf ++ [if (!gate_open) = true then 0
        else toS16 fi, if (!gate_open) = true then 0 else toS16 fq]).length ∨
        decide ((ch.iq_rec_frames + 1) % 65536 = 0) = true
    · rw [if_pos hflush]
      exact ⟨rfl, rfl, rfl, rfl, ⟨_, rfl, (List.append_nil _).trans hbytes⟩, hlen, htracks'⟩
    · rw [if_neg hflush]
      exact ⟨rfl, rfl, rfl, rfl, ⟨fp, rfl, hbytes⟩, hlen, htracks'⟩
  · rw [if_neg hheld, if_neg hheld, List.append_nil]
    exact ⟨rfl, rfl, rfl, rfl, ⟨fp, rfl, hcontent⟩, hframes, htracks'⟩

theorem Kept.foldl (h : ch.Kept sr paused all hist written) (es : List IqEvent) :
    ∃ paused' all' hist', (es.foldl step ch).Kept sr paused' all' hist'
      (written ++ iqKept (sr + 1) hist (unpausedIq paused all es)) := by
  induction es generalizing ch paused all hist written with
  | nil =>
    rw [unpausedIq, iqKept, selected, List.append_nil]
    exact ⟨paused, all, hist, h⟩
  | cons e es ih =>
    rw [List.foldl_cons]
    cases e with
    | sample fi fq gate_open =>
      cases paused with
      | true =>
        rw [step, h.maybeRecIq_paused]
        exact ih h
      | false =>
        cases all with
        | true =>
          have hsplit :
              iqKept (sr + 1) hist (unpausedIq false true (.sample fi fq gate_open :: es)) =
                [(toS16 fi, toS16 fq)] ++ iqKept (sr + 1) hist (unpausedIq false true es) := rfl
          rw [hsplit, ← List.append_assoc]
          exact ih (h.maybeRecIq_force fi fq gate_open)
        | false =>
          have hsplit :
              iqKept (sr + 1) hist (unpausedIq false false (.sample fi fq gate_open :: es)) =
                iqKept (sr + 1) hist [⟨fi, fq, some gate_open⟩] ++
                  iqKept (sr + 1) (gate_open :: hist) (unpausedIq false false es) := by
            have hgate : IqSample.gate ⟨fi, fq, some gate_open⟩ = some gate_open := rfl
            exact selected_cons_of_some hgate hist _
          rw [hsplit, ← List.append_assoc]
          exact ih (h.maybeRecIq fi fq gate_open)
    | hold paused =>
      have hheld : (ch.step (.hold paused)).Kept sr paused all hist written :=
        ⟨h.rec_on, h.rec_sr, rfl, h.force_all, h.content, h.frames, h.tracks⟩
      exact ih hheld
    | force all =>
      have hforced : (ch.step (.force all)).Kept sr paused all hist written :=
        ⟨h.rec_on, h.rec_sr, h.dem_paused, rfl, h.content, h.frames, h.tracks⟩
      exact ih hforced
    | drain => exact ih h.drain

theorem drained (paused all : Bool) (sr : ℕ) (es : List IqEvent) :
    let ch := (es.foldl step (started paused all sr)).iqRecDrain
    ch.iq_rec_fp = some (pcm (interleaved (iqKept (sr + 1) [] (unpausedIq paused all es)))) ∧
      ch.iq_rec_frames = (iqKept (sr + 1) [] (unpausedIq paused all es)).length := by
  obtain ⟨paused', all', hist', h⟩ := (kept_started paused all sr).foldl es
  obtain ⟨fp, hfp, hcontent⟩ := h.drain.content
  have hfull : fp = pcm (interleaved (iqKept (sr + 1) [] (unpausedIq paused all es))) :=
    (List.append_nil fp).symm.trans hcontent
  exact ⟨hfp.trans (congrArg some hfull), h.drain.frames⟩

end IqRec

/-! ## A second -/

/-- The file of audio has what a tail of a second keeps, and so many samples are counted. -/
def AudioSelects (paused : Bool) (sr : ℕ) (es : List AudioEvent) : Prop :=
  let ch := (es.foldl AudioRec.step (.started paused sr)).audioRecDrain
  let kept := audioKept sr [] (unpaused paused es)
  ch.audio_rec_fp = some (pcm kept) ∧ ch.audio_rec_frames = kept.length

/-- The file of IQ samples has what a tail of a second keeps, and so many are counted. -/
def IqSelects (paused all : Bool) (sr : ℕ) (es : List IqEvent) : Prop :=
  let ch := (es.foldl IqRec.step (.started paused all sr)).iqRecDrain
  let kept := iqKept sr [] (unpausedIq paused all es)
  ch.iq_rec_fp = some (pcm (interleaved kept)) ∧ ch.iq_rec_frames = kept.length

/-- The gate stays closed for more than a second after it was open. -/
def StaysClosed (sr : ℕ) (gates : List Bool) : Prop :=
  true :: List.replicate (sr + 1) false <:+: gates

/-- Either recorder writes what the gate selects just if the gate never stays closed for more than a
second, while the channel is not paused and the gate is looked at. -/
theorem kept_iff (paused all : Bool) (sr : ℕ) (es : List AudioEvent) (es' : List IqEvent) :
    (AudioSelects paused sr es ↔ ¬StaysClosed sr ((unpaused paused es).map Prod.snd)) ∧
    (IqSelects paused all sr es' ↔
      ¬StaysClosed sr ((unpausedIq paused all es').filterMap IqSample.gate)) := by
  constructor
  · have hdrained := AudioRec.drained paused sr es
    rw [StaysClosed, ← List.filterMap_eq_map]
    constructor
    · rintro ⟨-, hframes⟩
      exact (length_selected_succ_eq_iff _).1 (hdrained.2.symm.trans hframes)
    · intro hopens
      have hsame : audioKept (sr + 1) [] (unpaused paused es) =
          audioKept sr [] (unpaused paused es) := (selected_succ_eq_iff _).2 hopens
      rw [hsame] at hdrained
      exact hdrained
  · have hdrained := IqRec.drained paused all sr es'
    rw [StaysClosed]
    constructor
    · rintro ⟨-, hframes⟩
      exact (length_selected_succ_eq_iff _).1 (hdrained.2.symm.trans hframes)
    · intro hopens
      have hsame : iqKept (sr + 1) [] (unpausedIq paused all es') =
          iqKept sr [] (unpausedIq paused all es') := (selected_succ_eq_iff _).2 hopens
      rw [hsame] at hdrained
      exact hdrained

/-- At 2 samples a second, all of a sample with an open gate and 3 behind it are written. -/
theorem not_selects_of_closed :
    ¬AudioSelects false 2 [.sample (.inf false) true, .sample (.inf false) false,
        .sample (.inf false) false, .sample (.inf false) false] ∧
      ¬IqSelects false false 2 [.sample (.inf false) (.inf false) true,
        .sample (.inf false) (.inf false) false, .sample (.inf false) (.inf false) false,
        .sample (.inf false) (.inf false) false] :=
  ⟨fun h => absurd h.2 (by decide), fun h => absurd h.2 (by decide)⟩

end Bewe.Recorder
