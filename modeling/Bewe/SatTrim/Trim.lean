import Bewe.Lib.Layout
import Bewe.Lib.ShortWrites
import Bewe.Report.SigmfMeta
import Bewe.SatTrim.Resample

/-!
# Replacing a recording

`SatTrim::trim`: the recording is measured, cut down into a file of its own, and replaced by it, and
then its metadata are written anew. What the file operations make of it is part of what the function is
given (`Io`): each may fail, and a write may come short. The results of `fwrite`, `fclose` and
`write_meta` are not looked at, so that the recording and its metadata stay together just if nothing
fails from the first write to the rename, or the rename does, and nothing fails behind it
(`allOrNothing_iff`).
-/

namespace Bewe.SatTrim

open Lib
open EmitterDb (quote truncate)
open Report (Meta metaFindNum metaFindStr strptimeIso writeMeta double)

/-! ## The recording and its metadata -/

/-- A sample of 16 bits. -/
def int16 (lo hi : UInt8) : Int16 := Int16.ofNat (lo.toNat + 256 * hi.toNat)

/-- The samples of a recording; bytes that make no whole pair are not looked at. -/
def samples : Bytes → List (Int16 × Int16)
  | a :: b :: c :: d :: t => (int16 a b, int16 c d) :: samples t
  | _ => []

/-- The bytes of samples. -/
def sampleBytes (buf : List Int16) : Bytes := buf.flatMap fun s => leBytes 2 s.toBitVec.toNat

/-- `read_meta` of the text of the file. -/
def readMeta (s : Bytes) : Meta where
  sample_rate := ((metaFindNum s "core:sample_rate").map fun d => UInt32.ofInt (truncate d)).getD 0
  center_freq_hz := ((metaFindNum s "core:frequency").map fun d => UInt64.ofInt (truncate d)).getD 0
  start_unix :=
    ((((metaFindStr s "core:datetime").filter (· ≠ [])).bind strptimeIso).map timegm).getD 0
  bandwidth_hz := (metaFindNum s "bewe:bandwidth_hz").getD 0
  duration_s := (metaFindNum s "bewe:duration_s").getD 0
  station := (metaFindStr s "bewe:station").getD []
  modulation := (metaFindStr s "bewe:modulation").getD []
  op := (metaFindStr s "bewe:operator").getD []
  target := (metaFindStr s "bewe:target").getD []
  protocol := (metaFindStr s "bewe:protocol").getD []
  recorder := (metaFindStr s "core:recorder").getD []
  notes := (metaFindStr s "bewe:notes").getD []
  tags := (metaFindStr s "bewe:tags").getD []
  priority := (metaFindStr s "bewe:priority").getD []
  signal_strength := (metaFindStr s "bewe:signal_strength").getD []

/-! ## Measuring -/

/-- What is measured of a recording, and why it is not cut if it is not. -/
structure Measured where
  signal_rows : ℕ
  occ_bw_hz : ℚ
  center_off_hz : ℚ
  why : Option Bytes

/-- What `trim` calculates with the FFT and the functions of the C library: the measurement, the taps
before they are put into a list, the step of the rotator, and the loop.
-/
structure TrimMath (F D : Type) where
  arith : Arith F D
  /-- The rows, the band and the Doppler: from the sample rate, the samples and the start. -/
  measure : UInt32 → List (Int16 × Int16) → ℤ → Measured
  tap : ℕ → ℚ → ℕ → F
  step : ℚ → UInt32 → D

/-- A recording that is cut. -/
structure Job where
  metadata : Meta
  x : List (Int16 × Int16)
  found : Measured

/-- `bw_rec` -/
def Job.bw_rec (j : Job) : ℚ := double (j.found.occ_bw_hz * (5 / 4))

/-- `target_sr` -/
def Job.target_sr (j : Job) : ℚ := max (double (j.bw_rec * (5 / 4))) 2000

/-- `decim` -/
def Job.decim (j : Job) : ℕ := max 1 ⌊double (j.metadata.sample_rate.toNat / j.target_sr)⌋.toNat

/-- `sr_out` -/
def Job.sr_out (j : Job) : UInt32 := UInt32.ofNat (j.metadata.sample_rate.toNat / j.decim)

/-- `llround` -/
def llround (q : ℚ) : ℤ := if q < 0 then -⌊-q + 1 / 2⌋ else ⌊q + 1 / 2⌋

/-- `note`, in its buffer of 200 bytes. -/
def Job.note (j : Job) : Bytes :=
  ((if j.metadata.notes = [] then [] else ascii "; ") ++ ascii "Doppler-corrected; occupied " ++
    fmtFixed 2 (double (j.found.occ_bw_hz / 1000)) ++ ascii " kHz from " ++
      natText j.found.signal_rows ++ ascii " signal s").take 199

/-- The metadata of the recording when it has been cut. -/
def Job.newMeta (j : Job) : Meta :=
  { j.metadata with
    sample_rate := j.sr_out
    center_freq_hz := UInt64.ofInt
      (llround (double (double j.metadata.center_freq_hz.toNat + j.found.center_off_hz)))
    bandwidth_hz := j.bw_rec
    notes := j.metadata.notes ++ j.note }

section

variable {F D : Type} (M : TrimMath F D)

/-- The filter: its taps are `8 * decim + 1`. -/
def Job.setup (j : Job) : Setup F D where
  taps := (List.range (8 * j.decim + 1)).map
    (M.tap j.decim (double (j.bw_rec / 2 / j.metadata.sample_rate.toNat)))
  decim := j.decim
  step := M.step j.found.center_off_hz j.metadata.sample_rate

/-- The buffers of the calls of `fwrite`. -/
def Job.chunks (j : Job) : List Bytes := (buffers M.arith (j.setup M) j.x).map sampleBytes

/-- The bytes of the complete output. -/
def Job.output (j : Job) : Bytes := sampleBytes (filtered M.arith (j.setup M) j.x)

end

/-! ## Files -/

/-- The files: the recording, its metadata, and the temporary one. -/
structure Disk where
  data : Option Bytes
  metadata : Option Bytes
  tmp : Option Bytes

/-- What becomes of the file operations: whether a file is opened or mapped, how much of its buffer the
`i`-th `fwrite` of the output writes and how much is in the file when it is closed, whether the file is
renamed, and how much of the new metadata gets into their file.
-/
structure Io where
  openMeta : Bool
  openData : Bool
  map : Bool
  openTmp : Bool
  write : ℕ → ℕ
  close : ℕ
  rename : Bool
  openNewMeta : Bool
  newMeta : ℕ

/-- `Result` -/
structure Result where
  trimmed : Bool := false
  signal_rows : ℕ := 0
  occ_bw_hz : ℚ := 0
  center_off_hz : ℚ := 0
  sr_out : UInt32 := 0
  why : Bytes := []

/-- What has been measured. -/
def Measured.result (m : Measured) (why : Bytes) : Result where
  signal_rows := m.signal_rows
  occ_bw_hz := m.occ_bw_hz
  center_off_hz := m.center_off_hz
  why := why

section

variable {F D : Type} (M : TrimMath F D) (io : Io)

/-- The metadata, if they can be opened. -/
def Io.metaText (d : Disk) : Option Bytes := if io.openMeta then d.metadata else none

/-- The recording, if it can be opened. -/
def Io.dataBytes (d : Disk) : Option Bytes := if io.openData then d.data else none

/-- `trim` as far as the recording is cut or not. -/
def prepare (d : Disk) : Except Result Job :=
  match io.metaText d with
  | none => .error { why := ascii "no meta" }
  | some text =>
    let m := readMeta text
    if m.sample_rate = 0 then .error { why := ascii "no meta" }
    else
      match io.dataBytes d with
      | none => .error { why := ascii "open failed" }
      | some b =>
        let x := samples b
        if x.length < m.sample_rate.toNat * 10 then .error { why := ascii "shorter than 10 s" }
        else if !io.map then .error { why := ascii "mmap failed" }
        else
          let found := M.measure m.sample_rate x m.start_unix
          match found.why with
          | some why => .error (found.result why)
          | none =>
            let j : Job := ⟨m, x, found⟩
            if j.decim < 2 then .error (found.result (ascii "already narrow")) else .ok j

/-- The result of a recording that is cut. -/
def Job.result (j : Job) (why : Bytes) : Result :=
  { j.found.result why with sr_out := j.sr_out }

/-- `trim` from the temporary file on. -/
def replace (d : Disk) (j : Job) : Disk × Result :=
  if !io.openTmp then (d, j.result (ascii "cannot write"))
  else
    -- neither the writes nor the close are looked at
    let out := landed io.write io.close (j.chunks M)
    if !io.rename then ({ d with tmp := none }, j.result (ascii "rename failed"))
    else
      let metadata := if io.openNewMeta then some ((writeMeta j.newMeta).take io.newMeta)
        else d.metadata
      ({ data := some out, metadata, tmp := none }, { j.result [] with trimmed := true })

/-- `SatTrim::trim` -/
def trim (d : Disk) : Disk × Result :=
  match prepare M io d with
  | .error r => (d, r)
  | .ok j => replace M io d j

/-! ## All or nothing -/

/-- Nothing has happened: the recording and its metadata are as before, and there is no temporary file.
-/
structure Untouched (before after : Disk) (r : Result) : Prop where
  data : after.data = before.data
  metadata : after.metadata = before.metadata
  tmp : after.tmp = none
  trimmed : r.trimmed = false

/-- The recording has been replaced: it is the complete output, and its metadata describe it. -/
structure Replaced (j : Job) (after : Disk) (r : Result) : Prop where
  data : after.data = some (j.output M)
  metadata : after.metadata = some (writeMeta j.newMeta)
  tmp : after.tmp = none
  trimmed : r.trimmed = true

/-- One or the other. -/
def AllOrNothing (d : Disk) : Prop :=
  Untouched d (trim M io d).1 (trim M io d).2 ∨
    ∃ j, prepare M io d = .ok j ∧ Replaced M j (trim M io d).1 (trim M io d).2

/-- Nothing that is not looked at has failed. -/
structure Io.Complete (j : Job) : Prop where
  writes : WholeFrom io.write 0 (j.chunks M)
  close : (j.chunks M).flatten.length ≤ io.close
  openNewMeta : io.openNewMeta = true
  newMeta : (writeMeta j.newMeta).length ≤ io.newMeta

/-- If the recording is to be replaced, the rename fails or nothing that is not looked at does;
otherwise no temporary file was there before.
-/
def Safe (d : Disk) : Prop :=
  match prepare M io d with
  | .error _ => d.tmp = none
  | .ok j => if io.openTmp then io.rename = true → io.Complete M j else d.tmp = none

end

/-! ## The old metadata and the new -/

theorem truncate_natCast (n : ℕ) : truncate (n : ℚ) = n := by
  have hn : ¬(n : ℚ) < 0 := not_lt.2 (Nat.cast_nonneg n)
  rw [truncate, if_neg hn, Int.floor_natCast]

theorem sample_rate_writeMeta (m : Meta) : (readMeta (writeMeta m)).sample_rate = m.sample_rate := by
  have hclash : Clashes (enclosed quote (ascii "core:sample_rate"))
      (ascii "\x7b\n  \"global\": \x7b\n    \"core:datatype\": \"ci16_le\",\n    ") := by decide
  have hhead : ascii "\x7b\n  \"global\": \x7b\n    \"core:datatype\": \"ci16_le\",\n    \"core:sample_rate\": " =
      ascii "\x7b\n  \"global\": \x7b\n    \"core:datatype\": \"ci16_le\",\n    " ++
        (enclosed quote (ascii "core:sample_rate") ++ ascii ": ") := by decide
  have hsep : ascii ",\n    \"core:version\": \"1.0.0\",\n" =
      ascii ",\n" ++ ascii "    \"core:version\": \"1.0.0\",\n" := by decide
  obtain ⟨t, ht⟩ : ∃ t, writeMeta m =
      ascii "\x7b\n  \"global\": \x7b\n    \"core:datatype\": \"ci16_le\",\n    " ++
        (enclosed quote (ascii "core:sample_rate") ++ (ascii ": " ++
          (natText m.sample_rate.toNat ++ (ascii ",\n" ++ t)))) := by
    refine ⟨ascii "    \"core:version\": \"1.0.0\",\n" ++
      (m.strings.flatMap (fun kv => Report.kvStr kv.1 kv.2) ++ Report.metaTail m), ?_⟩
    rw [writeMeta, Report.metaHead, hhead, hsep]
    simp only [List.append_assoc]
  have hfind : Report.find "core:sample_rate" (writeMeta m) =
      some (ascii ": " ++ (natText m.sample_rate.toNat ++ (ascii ",\n" ++ t))) := by
    rw [ht, Report.find, findAfter_of_clashes hclash]
    exact findAfter_self _ _
  have hends : EndsNumber (ascii ",\n" ++ t) := by
    intro c hc
    obtain rfl : 44 = c := Option.some.inj hc
    decide
  -- a number of 32 bits is kept by a `double`
  have hlt : m.sample_rate.toNat < 2 ^ 32 := m.sample_rate.toNat_lt
  have hdouble : roundBits 53 (m.sample_rate.toNat : ℚ) = m.sample_rate.toNat := by
    have hz := roundBits_intCast (p := 53) (by norm_num) (z := m.sample_rate.toNat)
      (by rw [abs_of_nonneg (by positivity)]; omega)
    exact_mod_cast hz
  unfold readMeta
  dsimp only
  rw [Report.metaFindNum_of_find hfind, atof_natText _ hends, hdouble, Option.map_some,
    Option.getD_some, truncate_natCast]
  refine UInt32.toNat_inj.1 ?_
  simp only [UInt32.ofInt, UInt32.toNat_ofNat']
  omega

section

variable {F D : Type} {M : TrimMath F D} {io : Io} {d : Disk} {j : Job}

theorem prepare_error {r : Result} (h : prepare M io d = .error r) : r.trimmed = false := by
  unfold prepare at h
  split at h
  · exact Except.error.inj h ▸ rfl
  · dsimp only at h
    split at h
    · exact Except.error.inj h ▸ rfl
    · split at h
      · exact Except.error.inj h ▸ rfl
      · split at h
        · exact Except.error.inj h ▸ rfl
        · split at h
          · exact Except.error.inj h ▸ rfl
          · split at h
            · exact Except.error.inj h ▸ rfl
            · split at h
              · exact Except.error.inj h ▸ rfl
              · exact absurd h (by simp)

theorem prepare_ok (h : prepare M io d = .ok j) :
    (∃ text, d.metadata = some text ∧ j.metadata = readMeta text) ∧ j.metadata.sample_rate ≠ 0 ∧
      2 ≤ j.decim := by
  unfold prepare at h
  split at h
  · exact absurd h (by simp)
  · rename_i text htext
    dsimp only at h
    split at h
    · exact absurd h (by simp)
    · rename_i hrate
      split at h
      · exact absurd h (by simp)
      · split at h
        · exact absurd h (by simp)
        · split at h
          · exact absurd h (by simp)
          · split at h
            · exact absurd h (by simp)
            · split at h
              · exact absurd h (by simp)
              · rename_i hdecim
                obtain rfl := Except.ok.inj h
                refine ⟨⟨text, ?_, rfl⟩, hrate, not_lt.1 hdecim⟩
                unfold Io.metaText at htext
                split_ifs at htext
                exact htext

theorem metadata_ne_new (h : prepare M io d = .ok j) : d.metadata ≠ some (writeMeta j.newMeta) := by
  obtain ⟨⟨text, htext, hmeta⟩, hrate, hdecim⟩ := prepare_ok h
  intro heq
  rw [htext] at heq
  have hsame : j.metadata.sample_rate = j.sr_out := by
    rw [hmeta, Option.some.inj heq]
    exact sample_rate_writeMeta j.newMeta
  have hpos : 0 < j.metadata.sample_rate.toNat :=
    Nat.pos_of_ne_zero fun hzero => hrate (UInt32.toNat_inj.1 hzero)
  have hless : j.metadata.sample_rate.toNat / j.decim < j.metadata.sample_rate.toNat :=
    Nat.div_lt_self hpos hdecim
  have hlt : j.metadata.sample_rate.toNat < 2 ^ 32 := j.metadata.sample_rate.toNat_lt
  have hnat := congrArg UInt32.toNat hsame
  rw [Job.sr_out, UInt32.toNat_ofNat', Nat.mod_eq_of_lt (by omega)] at hnat
  omega

/-! ## When nothing is lost -/

theorem Job.setup_pos (j : Job) : 0 < (j.setup M).decim ∧ 0 < (j.setup M).taps.length := by
  unfold Job.setup Job.decim
  dsimp only
  rw [List.length_map, List.length_range]
  exact ⟨by omega, Nat.succ_pos _⟩

theorem flatten_map_sampleBytes (bs : List (List Int16)) :
    (bs.map sampleBytes).flatten = sampleBytes bs.flatten := by
  induction bs with
  | nil => rfl
  | cons b bs ih =>
    rw [List.map_cons, List.flatten_cons, List.flatten_cons, ih]
    exact List.flatMap_append.symm

theorem Job.flatten_chunks (j : Job) : (j.chunks M).flatten = j.output M := by
  obtain ⟨hdecim, htaps⟩ := j.setup_pos (M := M)
  unfold Job.chunks Job.output
  rw [flatten_map_sampleBytes, flatten_buffers hdecim htaps]

theorem allOrNothing_of_left {r : Result} (htrim : trim M io d = (d, r)) (hr : r.trimmed = false) :
    AllOrNothing M io d ↔ d.tmp = none := by
  unfold AllOrNothing
  rw [htrim]
  constructor
  · rintro (h | ⟨_, _, h⟩)
    · exact h.tmp
    · exact h.tmp
  · exact fun htmp => Or.inl ⟨rfl, rfl, htmp, hr⟩

theorem allOrNothing_of_renamed (h : prepare M io d = .ok j) (hopen : io.openTmp = true)
    (hrename : io.rename = true) : AllOrNothing M io d ↔ io.Complete M j := by
  have htrim : trim M io d =
      ({ data := some (landed io.write io.close (j.chunks M))
         metadata := if io.openNewMeta then some ((writeMeta j.newMeta).take io.newMeta)
           else d.metadata
         tmp := none }, { j.result [] with trimmed := true }) := by
    unfold trim
    rw [h]
    dsimp only
    rw [replace, hopen, hrename]
    rfl
  unfold AllOrNothing
  rw [htrim]
  constructor
  · rintro (hleft | ⟨j', hj', hreplaced⟩)
    · exact absurd hleft.trimmed (by simp)
    · obtain rfl : j = j' := Except.ok.inj (h.symm.trans hj')
      have hdata := Option.some.inj hreplaced.data
      rw [← j.flatten_chunks, landed_eq_iff] at hdata
      have hmeta := hreplaced.metadata
      dsimp only at hmeta
      split_ifs at hmeta with hnew
      · have hlen := congrArg List.length (Option.some.inj hmeta)
        rw [List.length_take] at hlen
        exact ⟨hdata.1, hdata.2, hnew, by omega⟩
      · exact absurd hmeta (metadata_ne_new h)
  · rintro ⟨hwrites, hclose, hnew, hlen⟩
    refine Or.inr ⟨j, h, ⟨?_, ?_, rfl, rfl⟩⟩
    · rw [← j.flatten_chunks]
      exact congrArg some ((landed_eq_iff _ _ _).2 ⟨hwrites, hclose⟩)
    · dsimp only
      rw [if_pos hnew, List.take_of_length_le hlen]

end

/-- Trimming is all or nothing if and only if the rename fails, or nothing fails that is not looked at;
where it does not come to the rename, no temporary file may have been there before.
-/
theorem allOrNothing_iff {F D : Type} (M : TrimMath F D) (io : Io) (d : Disk) :
    AllOrNothing M io d ↔ Safe M io d := by
  unfold Safe
  cases h : prepare M io d with
  | error r =>
    have htrim : trim M io d = (d, r) := by
      unfold trim
      rw [h]
    exact allOrNothing_of_left htrim (prepare_error h)
  | ok j =>
    dsimp only
    cases hopen : io.openTmp with
    | false =>
      have htrim : trim M io d = (d, j.result (ascii "cannot write")) := by
        unfold trim
        rw [h]
        dsimp only
        rw [replace, hopen]
        rfl
      rw [if_neg Bool.false_ne_true]
      exact allOrNothing_of_left htrim rfl
    | true =>
      rw [if_pos rfl]
      cases hrename : io.rename with
      | false =>
        have htrim : trim M io d = ({ d with tmp := none }, j.result (ascii "rename failed")) := by
          unfold trim
          rw [h]
          dsimp only
          rw [replace, hopen, hrename]
          rfl
        refine ⟨fun _ hr => absurd hr Bool.false_ne_true, fun _ => Or.inl ?_⟩
        rw [htrim]
        exact ⟨rfl, rfl, rfl, rfl⟩
      | true =>
        rw [allOrNothing_of_renamed h hopen hrename]
        exact ⟨fun hc _ => hc, fun hc => hc rfl⟩

/-! ## A full disk -/

theorem length_samples : ∀ b : Bytes, (samples b).length = b.length / 4
  | a :: b :: c :: d :: t => by
    rw [samples, List.length_cons, length_samples t, List.length_cons, List.length_cons,
      List.length_cons, List.length_cons]
    omega
  | [] | [_] | [_, _] | [_, _, _] => by simp [samples]

theorem output_ne_nil {F D : Type} {M : TrimMath F D} {j : Job}
    (h : 8 * j.decim + 1 + j.decim ≤ j.x.length + 1) : j.output M ≠ [] := by
  obtain ⟨hdecim, -⟩ := j.setup_pos (M := M)
  have htaps : (j.setup M).taps.length = 8 * j.decim + 1 := by
    rw [Job.setup, List.length_map, List.length_range]
  have hdue : 1 ≤ (j.x.length + 1 - (j.setup M).taps.length) / (j.setup M).decim :=
    (Nat.le_div_iff_mul_le hdecim).2 (by rw [htaps]; change 1 * j.decim ≤ _; omega)
  obtain ⟨n, hn⟩ := Nat.exists_eq_add_of_le' hdue
  unfold Job.output filtered
  dsimp only
  rw [length_mixedFrom, hn, List.range_succ_eq_map, List.flatMap_cons]
  exact List.cons_ne_nil _ _

/-- Exact arithmetic, and a box for the window. A tone is found in the middle of the recording below, as
it is by the measurement: three bins in each of the twenty rows that have it.
-/
def toneMath : TrimMath ℚ (ℚ × ℚ) where
  arith :=
    { zero := 0
      ofInt16 v := v.toInt
      mul a b := (a.1 * b.1 - a.2 * b.2, a.1 * b.2 + a.2 * b.1)
      addMul acc h v := acc + h * v
      clamp v := Int16.ofInt (truncate (max (-32767) (min 32767 v)))
      one := (1, 0)
      turn a b := (a.1 * b.1 - a.2 * b.2, a.1 * b.2 + a.2 * b.1)
      norm a := a
      toFloat a := a }
  measure _ _ _ := ⟨20, 375 / 8, 0, none⟩
  tap decim _ _ := 1 / (8 * decim + 1)
  step _ _ := (1, 0)

/-- Forty seconds at 4000 samples a second: a click at every 250-th sample, and a tone from the middle
on.
-/
def tone : Bytes :=
  (List.range 160000).flatMap fun t =>
    sampleBytes [(if t % 250 = 125 then 1000 else 0) + (if t < 80000 then 0 else 100), 0]

/-- Its metadata. -/
def toneMeta : Meta := { sample_rate := 4000, center_freq_hz := 437000000, duration_s := 40 }

/-- The recording and its metadata. -/
def toneDisk : Disk := ⟨some tone, some (writeMeta toneMeta), none⟩

/-- The disk is full: the temporary file is made, but nothing gets into it. -/
def fullDisk : Io where
  openMeta := true
  openData := true
  map := true
  openTmp := true
  write _ := 0
  close := 0
  rename := true
  openNewMeta := true
  newMeta := 4096

theorem length_tone : tone.length = 640000 := by
  have hpair : ∀ a b : Int16, (sampleBytes [a, b]).length = 4 := fun _ _ => rfl
  rw [tone, List.length_flatMap, List.map_congr_left fun t _ => hpair _ _, List.map_const',
    List.length_range, List.sum_replicate]
  rfl

theorem prepare_tone :
    ∃ j, prepare toneMath fullDisk toneDisk = .ok j ∧ j.decim = 2 ∧ j.x.length = 160000 := by
  have hrate : (readMeta (writeMeta toneMeta)).sample_rate = 4000 := sample_rate_writeMeta toneMeta
  have hlen : (samples tone).length = 160000 := by
    rw [length_samples, length_tone]
  have hdecim : (⟨readMeta (writeMeta toneMeta), samples tone, ⟨20, 375 / 8, 0, none⟩⟩ : Job).decim =
      2 := by
    unfold Job.decim Job.target_sr Job.bw_rec
    dsimp only
    rw [hrate]
    decide +kernel
  refine ⟨_, ?_, hdecim, ?_⟩
  swap
  · dsimp only
    rw [hlen]
  unfold prepare
  have htext : fullDisk.metaText toneDisk = some (writeMeta toneMeta) := rfl
  have hdata : fullDisk.dataBytes toneDisk = some tone := rfl
  have hnz : ¬(readMeta (writeMeta toneMeta)).sample_rate = 0 := by
    rw [hrate]
    decide
  have hmap : ¬(!fullDisk.map) = true := by decide
  have hlong : ¬(samples tone).length < (readMeta (writeMeta toneMeta)).sample_rate.toNat * 10 := by
    rw [hrate, hlen]
    decide
  rw [htext]
  dsimp only
  rw [if_neg hnz, hdata]
  dsimp only
  rw [if_neg hlong, if_neg hmap]
  -- there is something to cut away
  refine if_neg (fun hnarrow => ?_)
  have hwide := hdecim.symm.trans_lt hnarrow
  exact absurd hwide (by decide)

/-- On a full disk the recording is replaced by an empty one. -/
theorem not_allOrNothing_fullDisk : ¬AllOrNothing toneMath fullDisk toneDisk := by
  obtain ⟨j, hj, hdecim, hlen⟩ := prepare_tone
  rw [allOrNothing_of_renamed hj rfl rfl]
  intro h
  have hclose : (j.chunks toneMath).flatten.length ≤ 0 := h.close
  rw [j.flatten_chunks] at hclose
  refine output_ne_nil ?_ (List.length_eq_zero_iff.1 (Nat.le_zero.1 hclose))
  omega

end Bewe.SatTrim
