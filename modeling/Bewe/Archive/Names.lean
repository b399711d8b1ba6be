import Mathlib.Data.Bool.AllAny
import Bewe.Hist.Blocks
import Bewe.Hist.Names
import Bewe.Paths.Contained
import Bewe.Saved.Text

/-!
# A recording's name on the host and at Central

The host names its file of a recording when it opens it and again when it closes it (`open_new_file`
and `close_file_locked` of `src/long_waterfall.cpp`). It tells Central the first name, in the 64
bytes of a field of LWF_LIVE_START, and Central names its own file after that (`liveStart`,
`liveStop`). Each side takes the time at which the recording ended from its own clock, and throws
recordings away that are empty or shorter than 90 seconds.

`named_alike` follows a mission from empty directories on: where names fit in the field and both
sides see a recording end in the same minute, they name it alike, and no two recordings have the same
name. The names of recordings that are kept differ in the minute of the beginning, so neither side
ever meets a name that it has given.
-/

namespace Bewe.Archive

open Lib Hist Paths

/-! ## The host -/

/-- A recording of a mission: what LWF_LIVE_START tells but for the name; when it was closed, by the
host's clock, and the rows that the host wrote; when Central heard of it, by Central's clock, and the
rows that Central wrote; and whether the host keeps its file. -/
structure HistSegment where
  ls : PktLwfLiveStart
  end_utc : ℕ
  rows : ℕ
  stop_utc : ℕ
  rows_written : ℕ
  dirty : Bool

/-- The loop of `open_new_file` that avoids names of files: the number of each try is put behind the
name of the try before. -/
def openNewName (isFile : Bytes → Bool) : List ℕ → Bytes → Bytes
  | [], fname => fname
  | n :: ns, fname =>
    if isFile fname then
      match rfind liveTail fname with
      | none => fname
      | some pos => openNewName isFile ns (fname.take pos ++ ascii "_" ++ natText n ++ liveTail)
    else fname

/-- The name under which the host opens a recording. -/
def openNewFile (dir station_name : Bytes) (r : HistSegment) (fs : ArchiveFs) : Bytes :=
  openNewName (fun n => (fs.find (join dir n)).isSome) (List.range' 2 98)
    (buildHistFilenameLive r.ls.start_utc_unix r.ls.center_freq_hz station_name)

/-- Whether the host keeps a recording when it is closed. -/
def HistSegment.HostKeeps (r : HistSegment) : Prop :=
  ¬ (r.rows = 0 ∨ histIsShortStub r.ls.start_utc_unix r.end_utc = true)

instance (r : HistSegment) : Decidable r.HostKeeps := inferInstanceAs (Decidable (¬ _))

/-- `close_file_locked`: the final name of a recording, none if it is thrown away, and the files. A
file that is not dirty is unlinked, since Central has all of it. -/
def closeFileLocked (dir fname : Bytes) (r : HistSegment) (fs : ArchiveFs) :
    Option Bytes × ArchiveFs :=
  let full := join dir fname
  if r.HostKeeps then
    let fin := buildHistFilenameFinalize fname r.end_utc
    let fs := if fin ≠ fname then fs.rename full (join dir fin) else fs
    (some fin, if r.dirty then fs
      else (fs.unlink (join dir fin)).unlink (join dir fin ++ ascii ".info"))
  else (none, (fs.unlink full).unlink (full ++ ascii ".info"))

/-- The field of LWF_LIVE_START that has the name: `strncpy` of 63 bytes. -/
def liveStartName (fname : Bytes) : Bytes := charArray 64 (fname.take 63)

/-! ## Central -/

/-- Whether Central keeps a recording when it hears that it was closed. -/
def HistSegment.CentralKeeps (r : HistSegment) : Prop :=
  ¬ (r.rows_written = 0 ∨ histIsShortStub r.ls.start_utc_unix r.stop_utc = true)

instance (r : HistSegment) : Decidable r.CentralKeeps := inferInstanceAs (Decidable (¬ _))

/-- What `liveStart` and `liveStop` do to the files for a recording: the name of Central's file, none
if it has none, and the files. -/
def centralSegment (dir filename : Bytes) (r : HistSegment) (fs : ArchiveFs) :
    Option Bytes × ArchiveFs :=
  let fname := cStr (filename.take 64)
  if ¬ pathComponentSafe fname 128 then (none, fs)
  else
    let full := freeName fs dir fname liveTail
    let fs := (fs.create full (liveHeader { r.ls with filename := filename }).bytes).1
    if r.CentralKeeps then
      let base := baseOf full
      let fin := buildHistFilenameFinalize base r.stop_utc
      if fin ≠ base then
        let finalp := freeName fs dir fin (ascii ".bewehist")
        (some (baseOf finalp), fs.rename full finalp)
      else (some base, fs)
    else (none, (fs.unlink full).unlink (full ++ ascii ".info"))

/-! ## A mission -/

/-- The directories of a mission on both sides, and the final names of its recordings. -/
structure MissionNames where
  host : ArchiveFs
  central : ArchiveFs
  named : List (Option Bytes × Option Bytes)

/-- Before the first recording. -/
def MissionNames.empty : MissionNames := ⟨Fs.empty [], Fs.empty [], []⟩

/-- A recording is opened and closed. -/
def MissionNames.next (hdir dir station_name : Bytes) (w : MissionNames) (r : HistSegment) :
    MissionNames :=
  let fname := openNewFile hdir station_name r w.host
  let h := closeFileLocked hdir fname r (w.host.create (join hdir fname) []).1
  let c := centralSegment dir (liveStartName fname) r w.central
  { host := h.2, central := c.2, named := w.named ++ [(h.1, c.1)] }

/-- The recordings are opened and closed one after another, by the host's clock. -/
structure InTurn (rs : List HistSegment) : Prop where
  ends : ∀ r ∈ rs, r.ls.start_utc_unix ≤ r.end_utc
  apart : rs.Pairwise fun r r' => r.end_utc ≤ r'.ls.start_utc_unix

/-- Both sides keep a recording or neither does; and if they keep it, its name fits in the field, and
it ended in the same minute of the day for both. -/
structure SeenAlike (station_name : Bytes) (r : HistSegment) : Prop where
  keeps : r.HostKeeps ↔ r.CentralKeeps
  fits : r.HostKeeps → (buildHistFilenameLive r.ls.start_utc_unix r.ls.center_freq_hz
    station_name).length < 64
  minute : r.HostKeeps →
    (r.end_utc + 9 * 3600) % 86400 / 60 = (r.stop_utc + 9 * 3600) % 86400 / 60

/-! ## Central's handlers -/

@[simp] theorem rooms_setRoom (s : State) (r : ℕ) (room : Room) :
    (s.setRoom r room).rooms r = room := by
  simp [State.setRoom]

/-! ## Names that fit -/

/-- A byte that may stand in a name anywhere. -/
def PathByte (c : UInt8) : Prop := 43 ≤ c ∧ c ≠ 47 ∧ c ≠ 92

instance (c : UInt8) : Decidable (PathByte c) := inferInstanceAs (Decidable (_ ∧ _))

theorem pathByte_iff (c : UInt8) : PathByte c ↔ 43 ≤ c.toNat ∧ c.toNat ≠ 47 ∧ c.toNat ≠ 92 := by
  simp only [PathByte, UInt8.le_iff_toNat_le, ne_eq, ← UInt8.toNat_inj]
  rfl

theorem pathByte_of_isNumByte {c : UInt8} (h : isNumByte c = true) : PathByte c := by
  simp only [isNumByte, isDigit, minusByte, plusByte, dotByte, expByte, Bool.or_eq_true,
    Bool.and_eq_true, decide_eq_true_eq, UInt8.le_iff_toNat_le, ← UInt8.toNat_inj] at h
  rw [pathByte_iff]
  simp at h
  omega

theorem pathByte_sanitized (c : UInt8) : PathByte (if isDigit c || 65 ≤ c && c ≤ 90 ||
    97 ≤ c && c ≤ 122 || c = 45 || c = 95 || c = 46 then c else 95) := by
  split_ifs with h
  · simp only [isDigit, Bool.or_eq_true, Bool.and_eq_true, decide_eq_true_eq,
      UInt8.le_iff_toNat_le, ← UInt8.toNat_inj] at h
    rw [pathByte_iff]
    simp at h
    omega
  · decide

theorem pathByte_padDigits {k n : ℕ} {c : UInt8} (h : c ∈ padDigits k n) : PathByte c :=
  pathByte_of_isNumByte (isNumByte_of_isDigit (isDigit_of_mem_padDigits h))

theorem pathByte_letter : ∀ m < 12, PathByte (UInt8.ofNat (65 + m)) := by decide

theorem pathByte_recordingStem {s cf : ℕ} {station : Bytes} {c : UInt8}
    (h : c ∈ recordingStem s cf station) : PathByte c := by
  unfold recordingStem stemText at h
  dsimp only at h
  have hdate := (civilOfDays_lt ((s + 9 * 3600) / 86400)).1
  generalize civilOfDays ((s + 9 * 3600) / 86400) = date at *
  have htwo : ∀ n, ∀ c ∈ twoDigits n, PathByte c := fun _ _ => pathByte_padDigits
  have hmonth : ∀ c ∈ monthAbbr3 date.2.1, PathByte c := by
    intro c hc
    have hall : ∀ c ∈ ascii "JanFebMarAprMayJunJulAugSepOctNovDec", PathByte c :=
      List.all_iff_forall_prop.1 (by decide)
    exact hall c (List.mem_of_mem_drop (List.mem_of_mem_take hc))
  have hyear : ∀ c ∈ (if date.1 < 10000 then padDigits 4 date.1 else natText date.1),
      PathByte c := by
    intro c hc
    split_ifs at hc
    · exact pathByte_padDigits hc
    · exact pathByte_padDigits hc
  have hstation : ∀ c ∈ sanitizeStationHist station, PathByte c := by
    intro c hc
    obtain ⟨d, -, rfl⟩ := List.mem_map.1 hc
    exact pathByte_sanitized d
  have hunderscore : ∀ c ∈ ascii "_", PathByte c := List.all_iff_forall_prop.1 rfl
  have hdot : ∀ c ∈ ascii ".", PathByte c := List.all_iff_forall_prop.1 rfl
  have hmhz : ∀ c ∈ ascii "MHz_", PathByte c := List.all_iff_forall_prop.1 rfl
  simp only [List.mem_append, List.mem_singleton, or_assoc] at h
  rcases h with h | h | rfl | h | h | h | h | h | h | h | h | h | h | h
  · exact hstation c h
  · exact hunderscore c h
  · exact pathByte_letter _ hdate
  · exact htwo _ c h
  · exact hunderscore c h
  · exact hmonth c h
  · exact htwo _ c h
  · exact hdot c h
  · exact hyear c h
  · exact hunderscore c h
  · exact pathByte_of_isNumByte (isNumByte_of_mem_fmtFixed h)
  · exact hmhz c h
  · exact htwo _ c h
  · exact htwo _ c h

theorem pathByte_live (s cf : ℕ) (station : Bytes) (c : UInt8)
    (h : c ∈ recordingStem s cf station ++ liveTail) : PathByte c := by
  have htail : ∀ c ∈ liveTail, PathByte c := List.all_iff_forall_prop.1 (by decide)
  rcases List.mem_append.1 h with h | h
  · exact pathByte_recordingStem h
  · exact htail c h

theorem cStr_liveStartName {fname : Bytes} (hlen : fname.length < 64)
    (hbytes : ∀ c ∈ fname, PathByte c) : cStr ((liveStartName fname).take 64) = fname := by
  have hzero : (0 : UInt8) ∉ fname := fun h => absurd (hbytes 0 h) (by decide)
  have hfield : fname.take 63 = fname := List.take_of_length_le (by omega)
  rw [liveStartName, charArray, List.take_take, min_self, hfield, List.take_append,
    List.take_of_length_le hlen.le, List.take_replicate]
  exact Saved.cStr_append_replicate hzero _

theorem pathComponentSafe_live {fname : Bytes} (hlen : fname.length < 64)
    (htwo : 2 < fname.length) (hbytes : ∀ c ∈ fname, PathByte c) :
    pathComponentSafe fname 128 = true := by
  simp only [pathComponentSafe, Bool.and_eq_true, decide_eq_true_eq, List.all_eq_true]
  refine ⟨⟨⟨⟨?_, by omega⟩, ?_⟩, ?_⟩, fun c hc => ?_⟩
  · rintro rfl
    cases htwo
  · rintro rfl
    exact absurd htwo (by decide)
  · rintro rfl
    exact absurd htwo (by decide)
  · obtain ⟨hle, hslash, hback⟩ := hbytes c hc
    refine ⟨⟨hslash, hback⟩, ?_⟩
    rw [UInt8.le_iff_toNat_le] at hle ⊢
    exact le_trans (by decide) hle

theorem endTail_length (utc : ℕ) : (endTail utc).length = liveTail.length := by
  simp only [endTail, List.length_append, twoDigits, padDigits_length]
  decide

/-- A tail with a time is not the tail of a recording that is open. -/
theorem endTail_ne_liveTail (utc : ℕ) : endTail utc ≠ liveTail := by
  intro h
  have hmem : (76 : UInt8) ∈ endTail utc := by
    rw [h]
    decide
  simp only [endTail, List.mem_append, or_assoc] at hmem
  rcases hmem with hmem | hmem | hmem | hmem
  · exact absurd hmem (by decide)
  · exact absurd (isDigit_of_mem_padDigits hmem) (by decide)
  · exact absurd (isDigit_of_mem_padDigits hmem) (by decide)
  · exact absurd hmem (by decide)

theorem endTail_congr {u v : ℕ}
    (h : (u + 9 * 3600) % 86400 / 60 = (v + 9 * 3600) % 86400 / 60) : endTail u = endTail v := by
  have hhour : (u + 9 * 3600) % 86400 / 3600 = (v + 9 * 3600) % 86400 / 3600 := by omega
  have hminute : (u + 9 * 3600) % 3600 / 60 = (v + 9 * 3600) % 3600 / 60 := by omega
  rw [endTail, endTail, hhour, hminute]

/-! ## Directories -/

/-- The names in a directory are of a kind. -/
def OnlyIn (P : Bytes → Prop) (fs : ArchiveFs) : Prop := ∀ p, fs.find p ≠ none → P p

section

variable {P Q : Bytes → Prop} {fs : ArchiveFs}

theorem OnlyIn.mono (h : OnlyIn P fs) (hPQ : ∀ p, P p → Q p) : OnlyIn Q fs :=
  fun p hp => hPQ p (h p hp)

theorem OnlyIn.unlink (h : OnlyIn P fs) (n : Bytes) : OnlyIn P (fs.unlink n) := by
  intro p hp
  rw [Fs.find_unlink] at hp
  split_ifs at hp
  · exact absurd rfl hp
  · exact h p hp

theorem OnlyIn.unlink_create (h : OnlyIn P fs) (n b : Bytes) :
    OnlyIn P ((fs.create n b).1.unlink n) := by
  intro p hp
  rw [Fs.find_unlink] at hp
  split_ifs at hp with hn
  · exact absurd rfl hp
  · refine h p ?_
    rwa [Fs.find_create, if_neg hn] at hp

theorem OnlyIn.rename_create (h : OnlyIn P fs) {n m : Bytes} (hm : P m) (b : Bytes) :
    OnlyIn P ((fs.create n b).1.rename n m) := by
  intro p hp
  obtain ⟨i, hi⟩ : ∃ i, (fs.create n b).1.find n = some i := by
    rw [Fs.find_create, if_pos rfl]
    exact ⟨_, rfl⟩
  rw [Fs.find_rename _ hi] at hp
  split_ifs at hp with hpm hpn
  · rw [hpm]
    exact hm
  · exact absurd rfl hp
  · refine h p ?_
    rwa [Fs.find_create, if_neg hpn] at hp

end

/-! ## Naming alike -/

/-- The final name of a recording. -/
def HistSegment.finalName (station_name : Bytes) (r : HistSegment) : Bytes :=
  recordingStem r.ls.start_utc_unix r.ls.center_freq_hz station_name ++ endTail r.end_utc

/-- The final name of one of some recordings that are kept. -/
def FinalIn (dir station_name : Bytes) (done : List HistSegment) (p : Bytes) : Prop :=
  ∃ r ∈ done, r.HostKeeps ∧ p = join dir (r.finalName station_name)

/-- What the names of recordings are. -/
def HistSegment.names (station_name : Bytes) (r : HistSegment) : Option Bytes × Option Bytes :=
  if r.HostKeeps then (some (r.finalName station_name), some (r.finalName station_name))
  else (none, none)

/-- The directories have final names of recordings only, and each recording got its own. -/
structure MissionNames.Tracks (hdir dir station_name : Bytes) (done : List HistSegment)
    (w : MissionNames) : Prop where
  host : OnlyIn (FinalIn hdir station_name done) w.host
  central : OnlyIn (FinalIn dir station_name done) w.central
  named : w.named = done.map (HistSegment.names station_name)

section

variable {hdir dir station_name : Bytes} {done : List HistSegment} {r r' : HistSegment}
  {fs : ArchiveFs}

/-- Recordings that are kept and that are apart do not begin in the same minute. -/
theorem stem_ne_of_apart (hkeeps : r.HostKeeps) (hends : r.ls.start_utc_unix ≤ r.end_utc)
    (hapart : r.end_utc ≤ r'.ls.start_utc_unix) :
    recordingStem r.ls.start_utc_unix r.ls.center_freq_hz station_name ≠
      recordingStem r'.ls.start_utc_unix r'.ls.center_freq_hz station_name := by
  intro h
  have hminute := stem_inj h
  obtain ⟨-, hlong⟩ := not_or.1 hkeeps
  unfold histIsShortStub HIST_STUB_MAX_SECS at hlong
  rw [Bool.and_eq_true, decide_eq_true_eq, decide_eq_true_eq] at hlong
  omega

theorem finalName_ne {a b : Bytes} (hne : a ≠ b) (u v : ℕ) : a ++ endTail u ≠ b ++ endTail v :=
  fun h => hne (List.append_inj' h (by rw [endTail_length, endTail_length])).1

theorem live_ne_final (a b : Bytes) (v : ℕ) : a ++ liveTail ≠ b ++ endTail v := fun h =>
  endTail_ne_liveTail v (List.append_inj' h (endTail_length v).symm).2.symm

theorem OnlyIn.find_live (h : OnlyIn (FinalIn dir station_name done) fs) (a : Bytes) :
    fs.find (join dir (a ++ liveTail)) = none := by
  by_contra hp
  obtain ⟨r', -, -, heq⟩ := h _ hp
  exact live_ne_final _ _ _ (join_inj.1 heq)

theorem firstFree_of_free {isFile : Bytes → Bool} {p : Bytes} (h : isFile p = false)
    (qs : List Bytes) : firstFree isFile p qs = p := by
  cases qs with
  | nil => rfl
  | cons q qs => rw [firstFree, if_neg (by rw [h]; exact Bool.false_ne_true)]

theorem openNewName_free {isFile : Bytes → Bool} {fname : Bytes} (h : isFile fname = false)
    (ns : List ℕ) : openNewName isFile ns fname = fname := by
  cases ns with
  | nil => rfl
  | cons n ns => exact if_neg (by rw [h]; exact Bool.false_ne_true)

theorem FinalIn.append {p : Bytes} (h : FinalIn dir station_name done p) :
    FinalIn dir station_name (done ++ [r]) p := by
  obtain ⟨r', hr', hkeeps, heq⟩ := h
  exact ⟨r', List.mem_append_left _ hr', hkeeps, heq⟩

theorem closeFileLocked_kept (h : OnlyIn (FinalIn hdir station_name done) fs)
    (hkeeps : r.HostKeeps)
    (hfits : (buildHistFilenameLive r.ls.start_utc_unix r.ls.center_freq_hz
      station_name).length < 64) :
    let fname := openNewFile hdir station_name r fs
    let c := closeFileLocked hdir fname r (fs.create (join hdir fname) []).1
    fname = recordingStem r.ls.start_utc_unix r.ls.center_freq_hz station_name ++ liveTail ∧
      c.1 = some (r.finalName station_name) ∧
        OnlyIn (FinalIn hdir station_name (done ++ [r])) c.2 := by
  have hlive := live_of_length (by omega : (buildHistFilenameLive r.ls.start_utc_unix
    r.ls.center_freq_hz station_name).length < 127)
  have hname : openNewFile hdir station_name r fs =
      recordingStem r.ls.start_utc_unix r.ls.center_freq_hz station_name ++ liveTail := by
    rw [openNewFile, hlive]
    refine openNewName_free ?_ _
    rw [h.find_live, Option.isSome_none]
  have hfinal : FinalIn hdir station_name (done ++ [r]) (join hdir (r.finalName station_name)) :=
    ⟨r, List.mem_append_right _ (List.mem_singleton.2 rfl), hkeeps, rfl⟩
  have hrenamed := (h.mono fun _ => FinalIn.append (r := r)).rename_create hfinal []
    (n := join hdir
      (recordingStem r.ls.start_utc_unix r.ls.center_freq_hz station_name ++ liveTail))
  dsimp only
  rw [hname]
  unfold closeFileLocked
  dsimp only
  rw [if_pos hkeeps, finalize_append_liveTail,
    if_pos (fun heq => live_ne_final _ _ _ heq.symm)]
  refine ⟨rfl, rfl, ?_⟩
  dsimp only
  split_ifs
  · exact hrenamed
  · exact (hrenamed.unlink _).unlink _

theorem centralSegment_kept (h : OnlyIn (FinalIn dir station_name done) fs)
    (hdone : ∀ r' ∈ done, r'.HostKeeps →
      recordingStem r'.ls.start_utc_unix r'.ls.center_freq_hz station_name ≠
        recordingStem r.ls.start_utc_unix r.ls.center_freq_hz station_name)
    (hkeeps : r.HostKeeps) (halike : SeenAlike station_name r) :
    let c := centralSegment dir (liveStartName
      (recordingStem r.ls.start_utc_unix r.ls.center_freq_hz station_name ++ liveTail)) r fs
    c.1 = some (r.finalName station_name) ∧
      OnlyIn (FinalIn dir station_name (done ++ [r])) c.2 := by
  have hlive := live_of_length (by have := halike.fits hkeeps; omega :
    (buildHistFilenameLive r.ls.start_utc_unix r.ls.center_freq_hz station_name).length < 127)
  have hfits := halike.fits hkeeps
  rw [hlive] at hfits
  have hend := endTail_congr (halike.minute hkeeps)
  have hfinalName : r.finalName station_name = recordingStem r.ls.start_utc_unix
      r.ls.center_freq_hz station_name ++ endTail r.stop_utc := by
    rw [HistSegment.finalName, hend]
  have hbytes := pathByte_live r.ls.start_utc_unix r.ls.center_freq_hz station_name
  generalize hstem : recordingStem r.ls.start_utc_unix r.ls.center_freq_hz station_name = stem at *
  have hsafe : pathComponentSafe (stem ++ liveTail) 128 = true := by
    refine pathComponentSafe_live hfits ?_ hbytes
    rw [List.length_append, show liveTail.length = 14 by decide]
    omega
  have hslash : slash ∉ stem ++ liveTail := (safeName_of_component hsafe).no_slash
  have hopen : freeName fs dir (stem ++ liveTail) liveTail = join dir (stem ++ liveTail) := by
    refine firstFree_of_free ?_ _
    rw [h.find_live, Option.isSome_none]
  have hne : stem ++ endTail r.stop_utc ≠ stem ++ liveTail :=
    fun heq => live_ne_final _ _ _ heq.symm
  -- the stems of the final names that are there are other ones
  have hfree : ∀ b, ((fs.create (join dir (stem ++ liveTail)) b).1.find
      (join dir (stem ++ endTail r.stop_utc))) = none := by
    intro b
    rw [Fs.find_create, if_neg (fun heq => hne (join_inj.1 heq))]
    by_contra hp
    obtain ⟨r', hr', hkeeps', heq⟩ := h _ hp
    exact finalName_ne (hdone r' hr' hkeeps') _ _ (join_inj.1 heq).symm
  have hclose : ∀ b, freeName (fs.create (join dir (stem ++ liveTail)) b).1 dir
      (stem ++ endTail r.stop_utc) (ascii ".bewehist") = join dir (stem ++ endTail r.stop_utc) := by
    intro b
    refine firstFree_of_free ?_ _
    rw [hfree, Option.isSome_none]
  have hslash' : slash ∉ stem ++ endTail r.stop_utc :=
    (safeName_endTail (fun hs => hslash (List.mem_append_left _ hs)) _).no_slash
  have hfinal : FinalIn dir station_name (done ++ [r]) (join dir (stem ++ endTail r.stop_utc)) :=
    ⟨r, List.mem_append_right _ (List.mem_singleton.2 rfl), hkeeps, by rw [hfinalName]⟩
  unfold centralSegment
  dsimp only
  rw [cStr_liveStartName hfits hbytes, if_neg (not_not_intro hsafe), hopen,
    if_pos (halike.keeps.1 hkeeps), baseOf_join hslash, finalize_append_liveTail, if_pos hne]
  dsimp only
  rw [hclose, baseOf_join hslash', hfinalName]
  exact ⟨rfl, (h.mono fun _ => FinalIn.append).rename_create hfinal _⟩

/-- A recording that is not kept leaves no name, and no other file is touched. -/
theorem closeFileLocked_discarded (h : OnlyIn (FinalIn hdir station_name done) fs)
    (hkeeps : ¬ r.HostKeeps) (fname : Bytes) :
    let c := closeFileLocked hdir fname r (fs.create (join hdir fname) []).1
    c.1 = none ∧ OnlyIn (FinalIn hdir station_name (done ++ [r])) c.2 := by
  unfold closeFileLocked
  dsimp only
  rw [if_neg hkeeps]
  exact ⟨rfl, ((h.mono fun _ => FinalIn.append).unlink_create _ _).unlink _⟩

/-- So it is at Central. -/
theorem centralSegment_discarded (h : OnlyIn (FinalIn dir station_name done) fs)
    (hkeeps : ¬ r.CentralKeeps) (filename : Bytes) :
    let c := centralSegment dir filename r fs
    c.1 = none ∧ OnlyIn (FinalIn dir station_name (done ++ [r])) c.2 := by
  unfold centralSegment
  dsimp only
  split_ifs
  · exact ⟨rfl, ((h.mono fun _ => FinalIn.append).unlink_create _ _).unlink _⟩
  · exact ⟨rfl, h.mono fun _ => FinalIn.append⟩

theorem MissionNames.Tracks.next {w : MissionNames}
    (h : w.Tracks hdir dir station_name done) (halike : SeenAlike station_name r)
    (hdone : ∀ r' ∈ done, r'.ls.start_utc_unix ≤ r'.end_utc ∧
      r'.end_utc ≤ r.ls.start_utc_unix) :
    (w.next hdir dir station_name r).Tracks hdir dir station_name (done ++ [r]) := by
  by_cases hkeeps : r.HostKeeps
  · obtain ⟨hname, hhost, hhostdir⟩ := closeFileLocked_kept h.host hkeeps (halike.fits hkeeps)
    have hstems : ∀ r' ∈ done, r'.HostKeeps →
        recordingStem r'.ls.start_utc_unix r'.ls.center_freq_hz station_name ≠
          recordingStem r.ls.start_utc_unix r.ls.center_freq_hz station_name :=
      fun r' hr' hkeeps' => stem_ne_of_apart hkeeps' (hdone r' hr').1 (hdone r' hr').2
    obtain ⟨hcentral, hcentraldir⟩ := centralSegment_kept h.central hstems hkeeps halike
    rw [← hname] at hcentral hcentraldir
    refine ⟨hhostdir, hcentraldir, ?_⟩
    unfold MissionNames.next
    dsimp only
    rw [hhost, hcentral, h.named, List.map_append, List.map_singleton, HistSegment.names,
      if_pos hkeeps]
  · obtain ⟨hhost, hhostdir⟩ := closeFileLocked_discarded h.host hkeeps
      (openNewFile hdir station_name r w.host)
    obtain ⟨hcentral, hcentraldir⟩ := centralSegment_discarded h.central
      (fun hc => hkeeps (halike.keeps.2 hc)) (liveStartName (openNewFile hdir station_name r w.host))
    refine ⟨hhostdir, hcentraldir, ?_⟩
    unfold MissionNames.next
    dsimp only
    rw [hhost, hcentral, h.named, List.map_append, List.map_singleton, HistSegment.names,
      if_neg hkeeps]

theorem MissionNames.Tracks.foldl {w : MissionNames} (h : w.Tracks hdir dir station_name done)
    (rs : List HistSegment) (hturn : InTurn (done ++ rs))
    (halike : ∀ r ∈ rs, SeenAlike station_name r) :
    (rs.foldl (MissionNames.next hdir dir station_name) w).Tracks hdir dir station_name
      (done ++ rs) := by
  induction rs generalizing done w with
  | nil => rwa [List.append_nil]
  | cons r rs ih =>
    have hsplit : done ++ r :: rs = done ++ [r] ++ rs := by simp
    have hnext := h.next (halike r List.mem_cons_self) fun r' hr' =>
      ⟨hturn.ends r' (List.mem_append_left _ hr'),
        (List.pairwise_append.1 hturn.apart).2.2 r' hr' r List.mem_cons_self⟩
    rw [hsplit] at hturn ⊢
    exact ih hnext hturn fun r' hr' => halike r' (List.mem_cons_of_mem _ hr')

/-- The names of two recordings are different. -/
def Apart (a b : Option Bytes × Option Bytes) : Prop :=
  ∀ x, a.1 = some x ∨ a.2 = some x → ¬ (b.1 = some x ∨ b.2 = some x)

/-- In a mission whose recordings are opened and closed one after another, and each of which both
sides see alike, the host and Central give every recording the same final name, or neither gives it
one, and no two recordings have the same. -/
theorem named_alike (hdir dir station_name : Bytes) {rs : List HistSegment} (hturn : InTurn rs)
    (halike : ∀ r ∈ rs, SeenAlike station_name r) :
    let w := rs.foldl (MissionNames.next hdir dir station_name) MissionNames.empty
    (∀ n ∈ w.named, n.1 = n.2) ∧ w.named.Pairwise Apart := by
  have hempty : MissionNames.empty.Tracks hdir dir station_name [] :=
    ⟨fun p hp => absurd rfl hp, fun p hp => absurd rfl hp, rfl⟩
  have htracks := hempty.foldl rs hturn halike
  dsimp only
  rw [htracks.named, List.nil_append]
  constructor
  · intro n hn
    obtain ⟨r, -, rfl⟩ := List.mem_map.1 hn
    unfold HistSegment.names
    split_ifs
    · rfl
    · rfl
  · rw [List.pairwise_map]
    refine hturn.apart.imp_of_mem fun {r r'} hr hr' hapart x hx hx' => ?_
    unfold HistSegment.names at hx hx'
    split_ifs at hx with hkeeps
    · split_ifs at hx' with hkeeps'
      · have hx := Option.some.inj ((or_self _).mp hx)
        have hx' := Option.some.inj ((or_self _).mp hx')
        exact finalName_ne (stem_ne_of_apart hkeeps (hturn.ends r hr) hapart) _ _
          (hx.trans hx'.symm)
      · simp at hx'
    · simp at hx

end

/-- A recording of rows on both sides that begins and is closed at some times. -/
def segmentAt (start_utc end_utc stop_utc : ℕ) : HistSegment where
  ls := { startOf 2 with center_freq_hz := 439100000, start_utc_unix := start_utc }
  end_utc := end_utc
  rows := 3
  stop_utc := stop_utc
  rows_written := 3
  dirty := true

/-- Two recordings of an hour, of which Central hears a second later. -/
def hourlySegments : List HistSegment :=
  [segmentAt 1779980400 1779984000 1779984001, segmentAt 1779984000 1779987600 1779987601]

theorem named_alike_hourly :
    let w := hourlySegments.foldl (MissionNames.next (ascii "hist") (ascii "DGS-1/_hist")
      (ascii "DGS-1")) MissionNames.empty
    (∀ n ∈ w.named, n.1 = n.2) ∧ w.named.Pairwise Apart := by
  refine named_alike _ _ _ ⟨by decide, by decide⟩ fun r hr => ?_
  fin_cases hr
  · exact ⟨by decide +kernel, by decide +kernel, by decide +kernel⟩
  · exact ⟨by decide +kernel, by decide +kernel, by decide +kernel⟩

/-- A recording that ends in the last second of a minute has another name at Central, which hears of
it in the next minute. -/
theorem lateStop_named_apart :
    ¬ ∀ hdir dir station_name : Bytes, ∀ rs : List HistSegment, InTurn rs →
      let w := rs.foldl (MissionNames.next hdir dir station_name) MissionNames.empty
      (∀ n ∈ w.named, n.1 = n.2) ∧ w.named.Pairwise Apart := by
  intro h
  have hnamed := (h (ascii "hist") (ascii "DGS-1/_hist") (ascii "DGS-1")
    [segmentAt 1779980400 1779983999 1779984000] ⟨by decide, by decide⟩).1
  revert hnamed
  decide +kernel

end Bewe.Archive
