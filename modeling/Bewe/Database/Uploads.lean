import Bewe.Database.Store
import Bewe.Lib.Run

/-!
# Uploads into the database

Any number of uploads, whose packets reach Central in any order that keeps those of each upload in
their own. `intact_of_keeps` says that every upload that finishes leaves its bytes and its sidecar
and that no other file changes, in every run in which a chunk comes while the file of its own upload
is the one that is open for its sender. HOST sees to that with a lock around an upload; two threads
of a JOIN do not, and Central, which is told the id of the transfer, does not look.
-/

namespace Bewe.Database

open Lib Archive
open MissionPush (Sender)
open Saved (Chars)

variable {ι : Type*} [DecidableEq ι] (base : Bytes) (u : ι → Upload)

/-! ## Runs -/

/-- Central, how many packets of each upload it has handled, the file that an upload was given, and
the upload whose file is open for a sender. -/
structure Uploads (ι : Type*) where
  central : DbState
  sent : ι → ℕ
  dst : ι → Option Bytes
  owner : Sender → Option ι

/-- The next packet of an upload. -/
def Uploads.next (s : Uploads ι) (i : ι) : Option Packet := (u i).packet (s.sent i)

/-- The path of the file for the next upload with a name. -/
def Uploads.path (s : Uploads ι) (sender : Sender) (m : PktDbSaveMeta) : Bytes :=
  savePath base sender s.central.fs m.filename.str

/-- Central handles the next packet of an upload. -/
def Uploads.step (s : Uploads ι) (i : ι) : Uploads ι :=
  match s.next u i with
  | none => s
  | some (.saveMeta m) =>
    { central := saveMeta base (u i).sender m s.central
      sent := Function.update s.sent i (s.sent i + 1)
      dst := Function.update s.dst i (some (s.path base (u i).sender m))
      owner := Function.update s.owner (u i).sender (some i) }
  | some (.saveData d) =>
    { central := saveData (u i).sender d s.central
      sent := Function.update s.sent i (s.sent i + 1)
      dst := s.dst
      owner := if d.is_last then Function.update s.owner (u i).sender none else s.owner }

/-- Before any packet. -/
def startUploads (fs : ArchiveFs) : Uploads ι where
  central := { fs := fs, db_fp := fun _ => none }
  sent _ := 0
  dst _ := none
  owner _ := none

/-- After the packets of a list of uploads, each the next one of its own. -/
def afterPackets (fs : ArchiveFs) (is : List ι) : Uploads ι :=
  is.foldl (Uploads.step base u) (startUploads fs)

/-! ## What is to hold -/

/-- A file of a satellite's frame, which is replaced by name. -/
def IsSatframe (q : Bytes) : Prop :=
  ∃ n, q = join (join base (ascii "satframe")) (ascii "SATFRAME_" ++ n)

/-- The sidecar that belongs to an upload, if it has one. -/
def Upload.sidecar (u : Upload) : Option Bytes := if u.info = [] then none else some u.info

/-- A packet changes no stored file but the one that its own upload is writing, and where it is the
last of the upload, that has the bytes and the sidecar of its source. -/
structure Intact (s : Uploads ι) (i : ι) : Prop where
  others : ∀ q c, s.central.fs.read q = some c → s.dst i ≠ some q → ¬IsSatframe base q →
    (s.step base u i).central.fs.read q = some c
  finished : s.next u i ≠ none → (s.step base u i).next u i = none →
    ∃ p, (s.step base u i).dst i = some p ∧
      (s.step base u i).central.fs.read p = some (u i).content ∧
      (s.step base u i).central.fs.read (sidecarPath p) = (u i).sidecar

/-- A name of the file or of the sidecar. -/
def NameOf (p q : Bytes) : Prop := q = p ∨ q = sidecarPath p

/-- What a META must find. -/
structure MetaKeeps (s : Uploads ι) (i : ι) (p : Bytes) : Prop where
  /-- Central takes the name. -/
  safe : dbFilenameSafe (u i).metaPacket.filename.str = true
  /-- The text of the sidecar goes into the packet. -/
  text : (0 : UInt8) ∉ (u i).info
  fits : (u i).info.length ≤ (u i).infoMax
  /-- The names are free, or those of a frame that is replaced with its sidecar. -/
  free : ∀ q, NameOf p q → s.central.fs.find q = none ∨ IsSatframe base q
  bare : (u i).info = [] → s.central.fs.find (sidecarPath p) = none
  /-- No other sender is writing under one of the names. -/
  apart : ∀ f j p', f ≠ (u i).sender → s.owner f = some j → s.dst j = some p' →
    ∀ q, NameOf p q → ¬NameOf p' q

/-- The packets that mix nothing: a META with names of its own, and a chunk of the upload whose file
is open. -/
def PacketKeeps (s : Uploads ι) (i : ι) : Prop :=
  match s.next u i with
  | none => True
  | some (.saveMeta m) => MetaKeeps base u s i (s.path base (u i).sender m)
  | some (.saveData _) => s.owner (u i).sender = some i

/-! ## What Central has of an upload -/

/-- The file of an upload is open for its sender, and holds the chunks that have come. -/
structure Open (s : Uploads ι) (f : Sender) (j : ι) (p : Bytes) (k : ℕ) (fp : ℕ) : Prop where
  sender : (u j).sender = f
  dst : s.dst j = some p
  sent : s.sent j = k + 1
  handle : s.central.db_fp f = some ⟨fp, ((u j).content.take (k * CHUNK)).length⟩
  find : s.central.fs.find p = some fp
  content : s.central.fs.content fp = (u j).content.take (k * CHUNK)
  sidecar : s.central.fs.read (sidecarPath p) = (u j).sidecar

/-- What holds between two packets: the uploads whose files are open are being written, each under
names of its own. -/
structure Orderly (s : Uploads ι) : Prop where
  opened : ∀ f j, s.owner f = some j → ∃ p k fp, Open u s f j p k fp
  apart : ∀ f g j k p p', f ≠ g → s.owner f = some j → s.owner g = some k → s.dst j = some p →
    s.dst k = some p' → ∀ q, NameOf p q → ¬NameOf p' q

/-! ## META -/

section

variable {base u} {s : Uploads ι} {i : ι} {p : Bytes}

omit [DecidableEq ι] in
/-- The text that Central reads is that of the sidecar. -/
theorem MetaKeeps.info (h : MetaKeeps base u s i p) :
    (u i).metaPacket.info_data.str.take 1023 = (u i).info := by
  have hmax : (u i).infoMax ≤ 1023 := by
    unfold Upload.infoMax
    split <;> omega
  have hstr : cStr (u i).info = (u i).info :=
    List.takeWhile_eq_self_iff.2 fun c hc => by
      simpa using fun hzero : c = 0 => h.text (hzero ▸ hc)
  have hcopy : (cStr (u i).info).take (u i).infoMax = (u i).info := by
    rw [hstr, List.take_of_length_le h.fits]
  have hlen : (u i).info.length ≤ 1023 := h.fits.trans hmax
  calc (u i).metaPacket.info_data.str.take 1023
    _ = (Chars.ofStr 1024 (u i).info).str.take 1023 := by rw [Upload.metaPacket, hcopy]
    _ = ((u i).info.take 1024).take 1023 := by rw [Chars.str_ofStr h.text]
    _ = (u i).info := by
      rw [List.take_take, List.take_of_length_le (by omega)]

/-- The files with the sidecar of an upload. -/
def withSidecar (fs : ArchiveFs) (u : Upload) (p : Bytes) : ArchiveFs :=
  if u.info ≠ [] then (fs.create (sidecarPath p) u.info).1 else fs

omit [DecidableEq ι] in
/-- What META does: there are the sidecar, if there is a text, and an empty file that is open. -/
theorem MetaKeeps.saveMeta
    (h : MetaKeeps base u s i (s.path base (u i).sender (u i).metaPacket)) :
    saveMeta base (u i).sender (u i).metaPacket s.central =
      { fs := ((withSidecar s.central.fs (u i)
            (s.path base (u i).sender (u i).metaPacket)).create
          (s.path base (u i).sender (u i).metaPacket) []).1
        db_fp := Function.update s.central.db_fp (u i).sender
          (some ⟨((withSidecar s.central.fs (u i)
              (s.path base (u i).sender (u i).metaPacket)).create
            (s.path base (u i).sender (u i).metaPacket) []).2, 0⟩) } := by
  unfold Database.saveMeta
  rw [if_neg (not_not.2 h.safe)]
  simp only [h.info]
  rfl

theorem read_withSidecar (fs : ArchiveFs) (u : Upload) (p q : Bytes) :
    (((withSidecar fs u p).create p []).1).read q =
      if q = p then some []
      else if q = sidecarPath p ∧ u.info ≠ [] then some u.info else fs.read q := by
  rw [Fs.read_create]
  unfold withSidecar
  split_ifs with hp hinfo hside hside
  · rfl
  · rw [Fs.read_create, if_pos hside.1]
  · rw [Fs.read_create, if_neg fun hq => hside ⟨hq, hinfo⟩]
  · exact absurd hside.2 hinfo
  · rfl

theorem keeps_withSidecar (fs : ArchiveFs) (u : Upload) (p : Bytes) :
    Fs.Keeps (NameOf p) fs ((withSidecar fs u p).create p []).1 := by
  have hfirst : Fs.Keeps (NameOf p) fs (withSidecar fs u p) := by
    unfold withSidecar
    split_ifs
    · exact Fs.keeps_create _ _ (Or.inl (Or.inr rfl))
    · exact Fs.Keeps.refl _ _
  exact hfirst.trans (Fs.keeps_create _ _ (Or.inl (Or.inl rfl)))

/-! ## Steps -/

theorem packet_saveMeta {v : Upload} {k : ℕ} {m : PktDbSaveMeta}
    (h : v.packet k = some (.saveMeta m)) : k = 0 ∧ m = v.metaPacket := by
  cases k with
  | zero =>
    rw [Upload.packet_zero] at h
    split_ifs at h
    exact ⟨rfl, (Packet.saveMeta.inj (Option.some.inj h)).symm⟩
  | succ k =>
    rw [Upload.packet_succ] at h
    split_ifs at h
    exact Packet.noConfusion (Option.some.inj h)

theorem packet_saveData {v : Upload} {k : ℕ} {d : PktDbSaveData}
    (h : v.packet (k + 1) = some (.saveData d)) :
    d = v.dataPacket k ∧ k * CHUNK < v.content.length := by
  rw [Upload.packet_succ] at h
  split_ifs at h with hlt
  exact ⟨(Packet.saveData.inj (Option.some.inj h)).symm, hlt⟩

/-- An upload has finished when its chunks cover its file. -/
theorem packet_succ_eq_none {v : Upload} {k : ℕ} :
    v.packet (k + 1) = none ↔ v.content.length ≤ k * CHUNK := by
  rw [Upload.packet_succ]
  split_ifs with hlt
  · exact iff_of_false (by simp) (not_le.2 hlt)
  · exact iff_of_true rfl (not_lt.1 hlt)

theorem is_last_dataPacket {v : Upload} {k : ℕ} (hk : k * CHUNK < v.content.length) :
    (v.dataPacket k).is_last = true ↔ v.content.length ≤ (k + 1) * CHUNK := by
  have hlen : (slice (k * CHUNK) CHUNK v.content).length =
      min CHUNK (v.content.length - k * CHUNK) := by
    rw [slice, List.length_take, List.length_drop]
  simp only [Upload.dataPacket, decide_eq_true_eq, hlen, Nat.succ_mul]
  omega

theorem pwrite_dataPacket (v : Upload) (k : ℕ) :
    pwrite (v.content.take (k * CHUNK)).length (v.dataPacket k).data
        (v.content.take (k * CHUNK)) = v.content.take ((k + 1) * CHUNK) := by
  rw [MissionPush.pwrite_length, Nat.succ_mul, List.take_add]
  rfl

/-- A META under the condition opens the file of its upload. -/
theorem step_saveMeta {m : PktDbSaveMeta} (hnext : s.next u i = some (.saveMeta m))
    (h : MetaKeeps base u s i (s.path base (u i).sender m)) :
    ∃ p fp, p = s.path base (u i).sender m ∧ Open u (s.step base u i) (u i).sender i p 0 fp ∧
      (s.step base u i).owner = Function.update s.owner (u i).sender (some i) ∧
      (∀ j, j ≠ i → (s.step base u i).dst j = s.dst j ∧ (s.step base u i).sent j = s.sent j) ∧
      (∀ f, f ≠ (u i).sender → (s.step base u i).central.db_fp f = s.central.db_fp f) ∧
      Fs.Keeps (NameOf p) s.central.fs (s.step base u i).central.fs ∧
      ∀ q, ¬NameOf p q →
        (s.step base u i).central.fs.read q = s.central.fs.read q := by
  obtain ⟨hsent, rfl⟩ := packet_saveMeta hnext
  have hstep : s.step base u i =
      { central := Database.saveMeta base (u i).sender (u i).metaPacket s.central
        sent := Function.update s.sent i (s.sent i + 1)
        dst := Function.update s.dst i (some (s.path base (u i).sender (u i).metaPacket))
        owner := Function.update s.owner (u i).sender (some i) } := by
    simp only [Uploads.step, hnext]
  have hcentral := h.saveMeta
  set p := s.path base (u i).sender (u i).metaPacket with hp
  have hread := read_withSidecar s.central.fs (u i) p
  have hkeeps := keeps_withSidecar s.central.fs (u i) p
  set fs := withSidecar s.central.fs (u i) p with hfs
  refine ⟨p, (fs.create p []).2, rfl, ⟨rfl, ?_, ?_, ?_, ?_, ?_, ?_⟩, ?_, ?_, ?_, ?_, ?_⟩
  · rw [hstep]
    exact Function.update_self _ _ _
  · rw [hstep, hsent]
    exact Function.update_self _ _ _
  · rw [hstep, hcentral]
    simp
  · rw [hstep, hcentral, Fs.find_create, if_pos rfl]
  · rw [hstep, hcentral, Fs.content_create, if_pos rfl]
    simp
  · -- the sidecar is that of the upload, or there is none
    rw [hstep, hcentral, hread, if_neg (MissionPush.sidecarPath_ne p), Upload.sidecar]
    by_cases hinfo : (u i).info = []
    · rw [if_neg (fun hne => hne.2 hinfo), if_pos hinfo]
      exact Fs.read_eq_none_iff.2 (h.bare hinfo)
    · rw [if_pos ⟨rfl, hinfo⟩, if_neg hinfo]
  · rw [hstep]
  · intro j hj
    rw [hstep]
    exact ⟨Function.update_of_ne hj _ _, Function.update_of_ne hj _ _⟩
  · intro f hf
    rw [hstep, hcentral]
    exact Function.update_of_ne hf _ _
  · rw [hstep, hcentral]
    exact hkeeps
  · intro q hq
    rw [hstep, hcentral, hread, if_neg fun h => hq (Or.inl h),
      if_neg fun h => hq (Or.inr h.1)]

/-- A chunk that comes while the file of its upload is open goes into it. -/
theorem step_saveData (base : Bytes) {d : PktDbSaveData}
    (hnext : s.next u i = some (.saveData d)) {k fp : ℕ} (h : Open u s (u i).sender i p k fp) :
    k * CHUNK < (u i).content.length ∧
      (d.is_last = true ↔ (u i).content.length ≤ (k + 1) * CHUNK) ∧
      s.step base u i =
        { central :=
            { fs := s.central.fs.write fp ((u i).content.take ((k + 1) * CHUNK))
              db_fp := Function.update s.central.db_fp (u i).sender
                (if d.is_last then none
                else some ⟨fp, ((u i).content.take ((k + 1) * CHUNK)).length⟩) }
          sent := Function.update s.sent i (k + 2)
          dst := s.dst
          owner := if d.is_last then Function.update s.owner (u i).sender none else s.owner } := by
  have hnext' : (u i).packet (k + 1) = some (.saveData d) := by
    rw [← h.sent]
    exact hnext
  obtain ⟨rfl, hlt⟩ := packet_saveData hnext'
  refine ⟨hlt, is_last_dataPacket hlt, ?_⟩
  have hall : (if ((u i).dataPacket k).chunk_bytes ≤ ((u i).dataPacket k).data.length then
      ((u i).dataPacket k).data.take ((u i).dataPacket k).chunk_bytes else []) =
        ((u i).dataPacket k).data :=
    (if_pos (le_refl _)).trans List.take_length
  have hwrite := pwrite_dataPacket (u i) k
  have hlen : ((u i).content.take (k * CHUNK)).length + ((u i).dataPacket k).data.length =
      ((u i).content.take ((k + 1) * CHUNK)).length := by
    rw [Nat.succ_mul, List.take_add, List.length_append]
    rfl
  simp only [Uploads.step, hnext, saveData, h.handle, hall, h.content, hwrite, hlen, h.sent]

/-! ## Invariant -/

omit [DecidableEq ι] in
/-- What leaves the names of an upload and what is known of it, leaves its file open. -/
theorem Open.frame {s t : Uploads ι} {f : Sender} {j : ι} {p : Bytes} {k fp : ℕ}
    (h : Open u s f j p k fp) (hdst : t.dst j = s.dst j) (hsent : t.sent j = s.sent j)
    (hhandle : t.central.db_fp f = s.central.db_fp f)
    (hfile : t.central.fs.find p = some fp ∧ t.central.fs.content fp = s.central.fs.content fp)
    (hside : t.central.fs.read (sidecarPath p) = s.central.fs.read (sidecarPath p)) :
    Open u t f j p k fp :=
  ⟨h.sender, hdst.trans h.dst, hsent.trans h.sent, hhandle.trans h.handle, hfile.1,
    hfile.2.trans h.content, hside.trans h.sidecar⟩

omit [DecidableEq ι] in
theorem Orderly.ne_of_sent {s : Uploads ι} (h : Orderly u s) (hsent : s.sent i = 0) {f : Sender}
    {j : ι} (hj : s.owner f = some j) : j ≠ i := by
  rintro rfl
  obtain ⟨p, k, fp, hopen⟩ := h.opened f j hj
  have := hopen.sent
  omega

theorem Orderly.saveMeta {m : PktDbSaveMeta} (h : Orderly u s)
    (hnext : s.next u i = some (.saveMeta m))
    (hok : MetaKeeps base u s i (s.path base (u i).sender m)) : Orderly u (s.step base u i) := by
  obtain ⟨hsent, -⟩ := packet_saveMeta hnext
  obtain ⟨p, fp, hp, hopen, howner, hsame, hhandle, hkeeps, hread⟩ := step_saveMeta hnext hok
  rw [← hp] at hok
  -- an upload of another sender was open before
  have hold : ∀ f j, f ≠ (u i).sender → (s.step base u i).owner f = some j →
      s.owner f = some j ∧ j ≠ i := by
    intro f j hf hj
    rw [howner, Function.update_of_ne hf] at hj
    exact ⟨hj, h.ne_of_sent hsent hj⟩
  have hnew : ∀ j, (s.step base u i).owner (u i).sender = some j → j = i := by
    intro j hj
    rw [howner, Function.update_self] at hj
    exact (Option.some.inj hj).symm
  constructor
  · intro f j hj
    by_cases hf : f = (u i).sender
    · subst hf
      rw [hnew j hj]
      exact ⟨p, 0, fp, hopen⟩
    · obtain ⟨hj', hne⟩ := hold f j hf hj
      obtain ⟨p', k, fp', hopen'⟩ := h.opened f j hj'
      have hp' : ¬NameOf p p' := fun hq => hok.apart f j p' hf hj' hopen'.dst p' hq (Or.inl rfl)
      have hside : ¬NameOf p (sidecarPath p') := fun hq =>
        hok.apart f j p' hf hj' hopen'.dst _ hq (Or.inr rfl)
      exact ⟨p', k, fp', hopen'.frame (hsame j hne).1 (hsame j hne).2 (hhandle f hf)
        (hkeeps p' fp' hp' hopen'.find) (hread _ hside)⟩
  · intro f g j k q q' hfg hj hk hq hq'
    by_cases hf : f = (u i).sender
    · have hg : g ≠ (u i).sender := fun hg => hfg (hf.trans hg.symm)
      obtain ⟨hk', hne⟩ := hold g k hg hk
      subst hf
      rw [hnew j hj] at hq
      rw [(hsame k hne).1] at hq'
      obtain rfl : p = q := Option.some.inj (hopen.dst.symm.trans hq)
      exact hok.apart g k q' hg hk' hq'
    · obtain ⟨hj', hne⟩ := hold f j hf hj
      rw [(hsame j hne).1] at hq
      by_cases hg : g = (u i).sender
      · subst hg
        rw [hnew k hk] at hq'
        obtain rfl : p = q' := Option.some.inj (hopen.dst.symm.trans hq')
        exact fun x hx hx' => hok.apart f j q hf hj' hq x hx' hx
      · obtain ⟨hk', hne'⟩ := hold g k hg hk
        rw [(hsame k hne').1] at hq'
        exact h.apart f g j k q q' hfg hj' hk' hq hq'

theorem Orderly.saveData {d : PktDbSaveData} (h : Orderly u s)
    (hnext : s.next u i = some (.saveData d)) (hok : s.owner (u i).sender = some i) :
    Orderly u (s.step base u i) := by
  obtain ⟨p, k, fp, hopen⟩ := h.opened _ _ hok
  obtain ⟨-, -, hstep⟩ := step_saveData base hnext hopen
  -- what is open afterwards was open before
  have hold : ∀ f j, (s.step base u i).owner f = some j →
      s.owner f = some j ∧ (f = (u i).sender → d.is_last = false) := by
    intro f j hj
    rw [hstep] at hj
    cases hlast : d.is_last with
    | false =>
      simp only [hlast, Bool.false_eq_true, if_false] at hj
      exact ⟨hj, fun _ => rfl⟩
    | true =>
      simp only [hlast, if_true] at hj
      by_cases hf : f = (u i).sender
      · subst hf
        simp at hj
      · rw [Function.update_of_ne hf] at hj
        exact ⟨hj, fun heq => absurd heq hf⟩
  have hdst : (s.step base u i).dst = s.dst := by rw [hstep]
  constructor
  · intro f j hj
    obtain ⟨hj', hlast⟩ := hold f j hj
    by_cases hf : f = (u i).sender
    · subst hf
      obtain rfl : j = i := Option.some.inj (hj'.symm.trans hok)
      refine ⟨p, k + 1, fp, rfl, ?_, ?_, ?_, hstep ▸ hopen.find, ?_, ?_⟩
      · rw [hdst]
        exact hopen.dst
      · rw [hstep]
        exact Function.update_self _ _ _
      · rw [hstep]
        simp [hlast rfl]
      · rw [hstep]
        exact Function.update_self _ _ _
      · rw [hstep, Fs.read_write, if_neg]
        · exact hopen.sidecar
        · exact fun hfind => MissionPush.sidecarPath_ne p (Fs.inj _ _ _ _ hfind hopen.find)
    · obtain ⟨p', k', fp', hopen'⟩ := h.opened f j hj'
      have hne : j ≠ i := by
        rintro rfl
        exact hf hopen'.sender.symm
      have hapart := h.apart f _ j i p' p hf hj' hok hopen'.dst hopen.dst
      have hp' : p' ≠ p := fun heq => hapart p' (Or.inl rfl) (Or.inl heq)
      have hside : sidecarPath p' ≠ p := fun heq => hapart _ (Or.inr rfl) (Or.inl heq)
      refine ⟨p', k', fp', hopen'.frame (by rw [hdst]) ?_ ?_ ⟨?_, ?_⟩ ?_⟩
      · rw [hstep]
        exact Function.update_of_ne hne _ _
      · rw [hstep]
        exact Function.update_of_ne hf _ _
      · rw [hstep]
        exact hopen'.find
      · rw [hstep]
        refine Function.update_of_ne ?_ _ _
        rintro rfl
        exact hp' (Fs.inj _ _ _ _ hopen'.find hopen.find)
      · rw [hstep, Fs.read_write, if_neg]
        exact fun hfind => hside (Fs.inj _ _ _ _ hfind hopen.find)
  · intro f g j k q q' hfg hj hk hq hq'
    rw [hdst] at hq hq'
    exact h.apart f g j k q q' hfg (hold f j hj).1 (hold g k hk).1 hq hq'

theorem Orderly.step (h : Orderly u s) (hok : PacketKeeps base u s i) :
    Orderly u (s.step base u i) := by
  unfold PacketKeeps at hok
  cases hnext : s.next u i with
  | none =>
    have hsame : s.step base u i = s := by simp only [Uploads.step, hnext]
    rwa [hsame]
  | some pkt =>
    cases pkt with
    | saveMeta m =>
      rw [hnext] at hok
      exact h.saveMeta hnext hok
    | saveData d =>
      rw [hnext] at hok
      exact h.saveData hnext hok

/-- A packet under the condition leaves every other file, and the last one of an upload its bytes
and its sidecar. -/
theorem Orderly.intact (h : Orderly u s) (hok : PacketKeeps base u s i) : Intact base u s i := by
  unfold PacketKeeps at hok
  cases hnext : s.next u i with
  | none =>
    have hsame : s.step base u i = s := by simp only [Uploads.step, hnext]
    refine ⟨fun q c hq _ _ => ?_, fun hsome => absurd hnext hsome⟩
    rw [hsame]
    exact hq
  | some pkt =>
    cases pkt with
    | saveMeta m =>
      rw [hnext] at hok
      obtain ⟨p, fp, rfl, hopen, -, -, -, -, hread⟩ := step_saveMeta hnext hok
      constructor
      · intro q c hq _ hsat
        -- what is read is not one of the names, which were free
        have hname : ¬NameOf (s.path base (u i).sender m) q := by
          intro hname
          rcases hok.free q hname with hfree | hframe
          · rw [Fs.read_eq_none_iff.2 hfree] at hq
            simp at hq
          · exact hsat hframe
        rw [hread q hname]
        exact hq
      · intro _ hend
        rw [Uploads.next, hopen.sent, packet_succ_eq_none] at hend
        refine ⟨_, hopen.dst, ?_, hopen.sidecar⟩
        rw [Fs.read, hopen.find, Option.map_some, hopen.content, List.take_of_length_le hend]
    | saveData d =>
      rw [hnext] at hok
      obtain ⟨p, k, fp, hopen⟩ := h.opened _ _ hok
      obtain ⟨-, -, hstep⟩ := step_saveData base hnext hopen
      have hread : ∀ q, (s.step base u i).central.fs.read q =
          if q = p then some ((u i).content.take ((k + 1) * CHUNK))
          else s.central.fs.read q := by
        intro q
        rw [hstep, Fs.read_write]
        by_cases hq : q = p
        · rw [hq, if_pos hopen.find, if_pos rfl]
        · have hfind : s.central.fs.find q ≠ some fp := fun hfind =>
            hq (Fs.inj _ _ _ _ hfind hopen.find)
          rw [if_neg hfind, if_neg hq]
      constructor
      · intro q c hq hdst _
        rw [hread, if_neg]
        · exact hq
        · rintro rfl
          exact hdst hopen.dst
      · intro _ hend
        have hsent : (s.step base u i).sent i = k + 2 := by
          rw [hstep]
          exact Function.update_self _ _ _
        rw [Uploads.next, hsent, packet_succ_eq_none] at hend
        refine ⟨p, ?_, ?_, ?_⟩
        · rw [hstep]
          exact hopen.dst
        · rw [hread, if_pos rfl, List.take_of_length_le hend]
        · rw [hread, if_neg (MissionPush.sidecarPath_ne p)]
          exact hopen.sidecar

end

/-! ## Runs -/

/-- In a run whose packets mix nothing, each leaves every other file, and the last one of an upload
its bytes and its sidecar. -/
theorem intact_of_keeps (fs : ArchiveFs) (is : List ι)
    (his : ∀ is' i, is' ++ [i] <+: is → PacketKeeps base u (afterPackets base u fs is') i) :
    ∀ is' i, is' ++ [i] <+: is → Intact base u (afterPackets base u fs is') i := by
  intro is' i hpre
  have hstart : Orderly u (startUploads fs : Uploads ι) :=
    ⟨fun f j hj => by simp [startUploads] at hj,
      fun f g j k p p' _ hj => by simp [startUploads] at hj⟩
  have hall : ∀ is', is' <+: is → Orderly u (afterPackets base u fs is') :=
    forall_prefix_foldl (fun s i h hok => h.step hok) hstart his
  exact (hall is' ((List.prefix_append is' [i]).trans hpre)).intact (his is' i hpre)

/-! ## Two uploads of a JOIN -/

/-- Two files of a JOIN, of one byte each. -/
def twoUploads (i : Bool) : Upload where
  sender := .join 1
  filename := if i then ascii "b.wav" else ascii "a.wav"
  info := []
  content := if i then [2] else [1]

/-- One after the other, the files stay apart. -/
theorem intact_inTurn :
    Intact database twoUploads (afterPackets database twoUploads (Fs.empty []) [false, false, true])
      true := by
  refine intact_of_keeps database twoUploads (Fs.empty []) [false, false, true, true] ?_
    [false, false, true] true (List.prefix_refl _)
  refine forall_prefix_cons ?_ (forall_prefix_cons rfl (forall_prefix_cons ?_
    (forall_prefix_cons rfl forall_prefix_nil)))
  · refine ⟨by decide, by decide, by decide, ?_, fun _ => by decide, ?_⟩
    · rintro q (rfl | rfl)
      · exact Or.inl (by decide)
      · exact Or.inl (by decide)
    · intro f j p' _ hj
      simp [startUploads] at hj
  · refine ⟨by decide, by decide, by decide, ?_, fun _ => by decide, ?_⟩
    · rintro q (rfl | rfl)
      · exact Or.inl (by decide)
      · exact Or.inl (by decide)
    · intro f j p' hf hj
      have howner : (afterPackets database twoUploads (Fs.empty []) [false, false]).owner =
          Function.update (Function.update (fun _ => none) (.join 1) (some false)) (.join 1) none :=
        rfl
      replace hf : f ≠ .join 1 := hf
      replace hj := (congrFun howner f).symm.trans hj
      rw [Function.update_of_ne hf, Function.update_of_ne hf] at hj
      cases hj

/-- The chunk of the first file comes after the META of the second. -/
theorem mixed_state :
    ((afterPackets database twoUploads (Fs.empty []) [false, true]).next twoUploads
        false).isSome = true ∧
      ((afterPackets database twoUploads (Fs.empty []) [false, true, false]).next twoUploads
        false).isNone = true ∧
      (afterPackets database twoUploads (Fs.empty []) [false, true, false]).dst false =
        some (ascii "DataBase/iq/a.wav") ∧
      (afterPackets database twoUploads (Fs.empty []) [false, true, false]).central.fs.read
        (ascii "DataBase/iq/a.wav") = some [] ∧
      (afterPackets database twoUploads (Fs.empty []) [false, true, false]).central.fs.read
        (ascii "DataBase/iq/b.wav") = some [1] := by
  decide

/-- It goes into the second. -/
theorem not_intact_mixed :
    ¬Intact database twoUploads
      (afterPackets database twoUploads (Fs.empty []) [false, true]) false := by
  obtain ⟨hnext, hend, hdst, hread, -⟩ := mixed_state
  intro h
  obtain ⟨p, hp, hbytes, -⟩ :=
    h.finished (Option.isSome_iff_ne_none.1 hnext) (Option.isNone_iff_eq_none.1 hend)
  obtain rfl : p = ascii "DataBase/iq/a.wav" := Option.some.inj (hp.symm.trans hdst)
  have hempty := hbytes.symm.trans hread
  simp [twoUploads] at hempty

end Bewe.Database
