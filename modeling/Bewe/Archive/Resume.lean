import Bewe.Archive.Compress
import Bewe.Archive.Frame
import Bewe.Archive.LiveFrames
import Bewe.MissionPush.Packets

/-!
# Resumed downloads from the archive

DL_REQ at Central, which sends a file of the archive in chunks from an offset on, and the viewer
that writes the chunks to a local file (`start_download`, `on_mission_file_dl_data_recv` of
`mission_view.cpp`) and, when it asks again, asks for what lies behind the bytes it has. Nothing
says which content of the file those bytes are from. `unmixed_of_heads`: if each request finds them
at the head of the file, what the viewer has in the end was the file at some moment. Rows that are
appended leave the head as it is (`head_writeRow`); compressing a recording does not, nor does an
upload in its place.
-/

namespace Bewe.Archive

open Lib Hist

/-! ## Central -/

/-- `PktMissionFileDlReq`. -/
structure PktMissionFileDlReq where
  key : MissionFileKey
  start_offset : ℕ

/-- `PktMissionFileDlData` and the bytes behind it. -/
structure PktMissionFileDlData where
  key : MissionFileKey
  total_bytes : ℕ
  offset : ℕ
  chunk_bytes : ℕ
  is_first : Bool
  is_last : Bool
  info_data : Bytes
  data : Bytes

/-- `CHUNK` of a download. -/
def DL_CHUNK : ℕ := 256 * 1024

theorem DL_CHUNK_pos : 0 < DL_CHUNK := by decide

/-- The reply without a chunk: there is no file, or nothing behind the offset. -/
def emptyReply (key : MissionFileKey) (total_bytes offset : ℕ) : PktMissionFileDlData where
  key := key
  total_bytes := total_bytes
  offset := offset
  chunk_bytes := 0
  is_first := true
  is_last := true
  info_data := []
  data := []

/-- The loop over a file of which the chunks up to `off` are sent. -/
def dlChunks (key : MissionFileKey) (content : Bytes) (start : ℕ) (info : Bytes) (off : ℕ)
    (first : Bool) : List PktMissionFileDlData :=
  let total := content.length
  if off < total then
    let want := min DL_CHUNK (total - off)
    match fread off want content with
    | none => []
    | some data =>
      { key := key
        total_bytes := total
        offset := off
        chunk_bytes := want
        is_first := first
        is_last := total ≤ off + want
        info_data := if first ∧ start = 0 then info else []
        data := data } :: dlChunks key content start info (off + want) false
  else []
termination_by content.length - off
decreasing_by
  have hpos := DL_CHUNK_pos
  omega

/-- `handle_mission_file_dl_req`. -/
def handleDlReq (root : Bytes) (fs : ArchiveFs) (r : PktMissionFileDlReq) :
    List PktMissionFileDlData :=
  if ¬r.key.valid then []
  else
    match r.key.dir root with
    | none => []
    | some dir =>
      let full := join dir r.key.filenameStr
      match fs.read full with
      | none => [emptyReply r.key 0 0]
      | some content =>
        let total := content.length
        let start := min r.start_offset total
        let info := if start = 0 then ((fs.read (sidecarPath full)).getD []).take 1023 else []
        if total ≤ start then [emptyReply r.key total start]
        else dlChunks r.key content start info start true

/-! ## The viewer -/

/-- The local file with its sidecar, and the `g_dl_` variables of a download. -/
structure DlClient where
  file : Option Bytes
  info : Option Bytes
  g_dl_total : ℕ
  g_dl_written : ℕ
  g_dl_active : Bool

/-- The bytes that are there. -/
def DlClient.received (c : DlClient) : Bytes := c.file.getD []

/-- `start_download`, which asks for what is behind the bytes that are there. -/
def startDownload (c : DlClient) : DlClient :=
  { c with
    file := some c.received
    g_dl_total := 0
    g_dl_written := c.received.length
    g_dl_active := true }

/-- `on_mission_file_dl_data_recv`. -/
def onDlData (c : DlClient) (d : PktMissionFileDlData) : DlClient :=
  if ¬c.g_dl_active then c
  else
    let info := cStr (d.info_data.take 1024)
    let c := if d.is_first then
        { c with
          g_dl_total := d.total_bytes
          info := if info ≠ [] then some info else c.info }
      else c
    let c := if d.data ≠ [] then
        { c with
          file := c.file.map (pwrite d.offset d.data)
          g_dl_written := c.g_dl_written + d.data.length }
      else c
    if d.is_last then
      -- the reply that there is no file
      let gone := d.total_bytes = 0 ∧ c.g_dl_written = 0
      { file := if gone then none else c.file
        info := if gone then none else c.info
        g_dl_total := 0
        g_dl_written := 0
        g_dl_active := false }
    else c

/-! ## Downloads and operations in between -/

/-- What may happen to the archive between two requests. -/
inductive FileOp
  | op (o : Op)
  | pushData (r : ℕ) (d : PktMissionFilePushData) (f : PushFaults) (mf : MergeFaults) (now : ℕ)
  | fft (r : ℕ) (fh : PktFftFrame) (body : Bytes) (refused : Bytes → Bool) (now : ℕ)
  | liveRow (r : ℕ) (filename row : Bytes) (now : ℕ)
  | compress (level : ℕ) (io : CompressIo) (left path : Bytes) (now : ℕ)

/-- The archive, the contents that the file has had in the course of the run, and the viewer. -/
structure Download where
  archive : State
  had : List Bytes
  client : DlClient

/-- A request of which a number of packets arrive before it is cut off, or an operation on the
archive. -/
inductive DlEvent
  | attempt (n : ℕ)
  | archive (o : FileOp)

/-- The path of a key's file. -/
def MissionFileKey.path (root : Bytes) (k : MissionFileKey) : Option Bytes :=
  if k.valid then (k.dir root).map fun dir => join dir k.filenameStr else none

section

variable (z : Zstd) (root : Bytes) (key : MissionFileKey)

/-- What an operation does. -/
def FileOp.apply : FileOp → State → State
  | .op o, s => o.apply z root s
  | .pushData r d f mf now, s => (Archive.pushData z r d f mf now s).1
  | .fft r fh body refused now, s => onFft z r fh body refused now s
  | .liveRow r filename row now, s => onLiveRow z r filename row now s
  | .compress level io left path now, s =>
    { s with
      fs := (compressHist z level io left s.fs path).2
      mtime := fun i => if s.fs.next ≤ i then now else s.mtime i }

/-- What the file of the key holds. -/
def Download.content (s : Download) : Option Bytes := (key.path root).bind s.archive.fs.read

/-- The packets that answer the viewer's request. -/
def Download.reply (s : Download) : List PktMissionFileDlData :=
  handleDlReq root s.archive.fs ⟨key, s.client.received.length⟩

/-- What an event does. -/
def DlEvent.apply (s : Download) : DlEvent → Download
  | .attempt n =>
    let packets := (s.reply root key).take n
    { s with client := packets.foldl onDlData (startDownload s.client) }
  | .archive o =>
    let archive := o.apply z root s.archive
    { s with
      archive := archive
      had := s.had ++ ((key.path root).bind archive.fs.read).toList }

/-- A viewer that has nothing of the file. -/
def Download.start (archive : State) : Download where
  archive := archive
  had := ((key.path root).bind archive.fs.read).toList
  client := ⟨none, none, 0, 0, false⟩

/-- What events lead to. -/
def downloaded (archive : State) (es : List DlEvent) : Download :=
  es.foldl (DlEvent.apply z root key) (Download.start root key archive)

theorem attempt_client (s : Download) (n : ℕ) :
    (DlEvent.apply z root key s (.attempt n)).client =
      ((s.reply root key).take n).foldl onDlData (startDownload s.client) := rfl

theorem attempt_had (s : Download) (n : ℕ) :
    (DlEvent.apply z root key s (.attempt n)).had = s.had := rfl

theorem attempt_archive (s : Download) (n : ℕ) :
    (DlEvent.apply z root key s (.attempt n)).archive = s.archive := rfl

theorem archive_client (s : Download) (o : FileOp) :
    (DlEvent.apply z root key s (.archive o)).client = s.client := rfl

theorem archive_had (s : Download) (o : FileOp) :
    (DlEvent.apply z root key s (.archive o)).had = s.had ++
      ((key.path root).bind (o.apply z root s.archive).fs.read).toList := rfl

theorem archive_archive (s : Download) (o : FileOp) :
    (DlEvent.apply z root key s (.archive o)).archive = o.apply z root s.archive := rfl

/-- What the viewer has when it has been told that it has the last chunk is what the file held at
some moment. -/
def Download.Unmixed (s : Download) : Prop :=
  s.client.g_dl_active = false → ∀ b ∈ s.client.file, b ∈ s.had

/-- A request finds the bytes that the viewer has at the head of the file. -/
def DlEvent.Heads (s : Download) : DlEvent → Prop
  | .attempt _ => s.client.received = [] ∨ ∃ c ∈ s.content root key, s.client.received <+: c
  | .archive _ => True

end

/-- The chunks of a file from `start` on: each lies behind the others, together they are all there
is, and only the first and the last say that they are. -/
structure Tiles (ds : List PktMissionFileDlData) (start : ℕ) (content : Bytes) : Prop where
  nonempty : ds ≠ []
  data : (ds.map PktMissionFileDlData.data).flatten = content.drop start
  offset : ∀ (i : ℕ) d, ds[i]? = some d →
    d.offset = start + ((ds.take i).map PktMissionFileDlData.data).flatten.length
  size : ∀ d ∈ ds, d.chunk_bytes = d.data.length ∧ d.total_bytes = content.length
  first : ∀ (i : ℕ) d, ds[i]? = some d → (d.is_first = true ↔ i = 0)
  last : ∀ (i : ℕ) d, ds[i]? = some d → (d.is_last = true ↔ i + 1 = ds.length)

/-! ## One request -/

theorem dlChunks_eq (key : MissionFileKey) (content : Bytes) (start : ℕ) (info : Bytes) (off : ℕ)
    (first : Bool) : dlChunks key content start info off first =
      if off < content.length then
        { key := key
          total_bytes := content.length
          offset := off
          chunk_bytes := min DL_CHUNK (content.length - off)
          is_first := first
          is_last := content.length ≤ off + DL_CHUNK
          info_data := if first ∧ start = 0 then info else []
          data := (content.drop off).take DL_CHUNK } ::
            dlChunks key content start info (off + DL_CHUNK) false
      else [] := by
  rw [dlChunks]
  by_cases hoff : off < content.length
  · have hread : fread off (min DL_CHUNK (content.length - off)) content =
        some ((content.drop off).take DL_CHUNK) := by
      rw [fread_eq_some (by omega), slice, ← List.length_drop, ← List.take_take, List.take_length]
    simp only [if_pos hoff, hread]
    rcases Nat.lt_or_ge (content.length - off) DL_CHUNK with hlt | hge
    · -- the last chunk: the loop ends wherever it goes on
      have hleft : content.length ≤ off + DL_CHUNK := by omega
      have hend : dlChunks key content start info (off + DL_CHUNK) false = [] := by
        rw [dlChunks, if_neg (by omega)]
      have hend' : dlChunks key content start info (off + min DL_CHUNK (content.length - off))
          false = [] := by
        rw [dlChunks, if_neg (by omega)]
      rw [hend, hend']
      congr 2
      simp only [decide_eq_decide]
      omega
    · rw [Nat.min_eq_left hge]
  · simp only [if_neg hoff]

theorem dlChunks_induction (content : Bytes) {P : ℕ → Bool → Prop}
    (hdone : ∀ off first, content.length ≤ off → P off first)
    (hmore : ∀ off first, off < content.length → P (off + DL_CHUNK) false → P off first)
    (off : ℕ) (first : Bool) : P off first := by
  have hpos := DL_CHUNK_pos
  induction hn : content.length - off using Nat.strong_induction_on generalizing off first with
  | _ n ih =>
    rcases Nat.lt_or_ge off content.length with hlt | hge
    · exact hmore off first hlt (ih _ (by omega) _ _ rfl)
    · exact hdone off first hge

section

variable (key : MissionFileKey) (content : Bytes) (start : ℕ) (info : Bytes)

theorem flatten_dlChunks (off : ℕ) (first : Bool) :
    ((dlChunks key content start info off first).map PktMissionFileDlData.data).flatten =
      content.drop off := by
  induction off, first using dlChunks_induction content with
  | hdone off first hge =>
    rw [dlChunks_eq, if_neg (by omega), List.drop_eq_nil_of_le hge]
    rfl
  | hmore off first hlt ih =>
    rw [dlChunks_eq, if_pos hlt, List.map_cons, List.flatten_cons, ih, ← List.drop_drop]
    exact List.take_append_drop _ _

theorem offset_dlChunks (off : ℕ) (first : Bool) (i : ℕ) (d : PktMissionFileDlData)
    (hd : (dlChunks key content start info off first)[i]? = some d) :
    d.offset = off + (((dlChunks key content start info off first).take i).map
      PktMissionFileDlData.data).flatten.length := by
  induction off, first using dlChunks_induction content generalizing i with
  | hdone off first hge =>
    rw [dlChunks_eq, if_neg (by omega)] at hd
    simp at hd
  | hmore off first hlt ih =>
    rw [dlChunks_eq, if_pos hlt] at hd ⊢
    cases i with
    | zero =>
      rw [List.getElem?_cons_zero] at hd
      obtain rfl := Option.some.inj hd
      rfl
    | succ i =>
      rw [List.getElem?_cons_succ] at hd
      have hrest := ih i hd
      -- there is a next chunk, so this one is whole
      have hmore : off + DL_CHUNK < content.length := by
        by_contra hend
        rw [dlChunks_eq, if_neg hend] at hd
        simp at hd
      rw [hrest, List.take_succ_cons, List.map_cons, List.flatten_cons, List.length_append,
        List.length_take, List.length_drop, Nat.min_eq_left (by omega)]
      omega

theorem size_dlChunks (off : ℕ) (first : Bool) :
    ∀ d ∈ dlChunks key content start info off first,
      d.chunk_bytes = d.data.length ∧ d.total_bytes = content.length := by
  induction off, first using dlChunks_induction content with
  | hdone off first hge =>
    rw [dlChunks_eq, if_neg (by omega)]
    simp
  | hmore off first hlt ih =>
    rw [dlChunks_eq, if_pos hlt]
    intro d hd
    rcases List.mem_cons.1 hd with rfl | hd
    · simp
    · exact ih d hd

theorem is_first_dlChunks (off : ℕ) (first : Bool) (i : ℕ) (d : PktMissionFileDlData)
    (hd : (dlChunks key content start info off first)[i]? = some d) :
    d.is_first = true ↔ i = 0 ∧ first = true := by
  induction off, first using dlChunks_induction content generalizing i with
  | hdone off first hge =>
    rw [dlChunks_eq, if_neg (by omega)] at hd
    simp at hd
  | hmore off first hlt ih =>
    rw [dlChunks_eq, if_pos hlt] at hd
    cases i with
    | zero =>
      rw [List.getElem?_cons_zero] at hd
      obtain rfl := Option.some.inj hd
      simp
    | succ i =>
      rw [List.getElem?_cons_succ] at hd
      rw [ih i hd]
      simp

theorem dlChunks_eq_nil_iff (off : ℕ) (first : Bool) :
    dlChunks key content start info off first = [] ↔ content.length ≤ off := by
  rw [dlChunks_eq]
  split_ifs with hoff
  · simp [hoff]
  · simp [not_lt.1 hoff]

theorem is_last_dlChunks (off : ℕ) (first : Bool) (i : ℕ) (d : PktMissionFileDlData)
    (hd : (dlChunks key content start info off first)[i]? = some d) :
    d.is_last = true ↔ i + 1 = (dlChunks key content start info off first).length := by
  induction off, first using dlChunks_induction content generalizing i with
  | hdone off first hge =>
    rw [dlChunks_eq, if_neg (by omega)] at hd
    simp at hd
  | hmore off first hlt ih =>
    rw [dlChunks_eq, if_pos hlt] at hd ⊢
    cases i with
    | zero =>
      rw [List.getElem?_cons_zero] at hd
      obtain rfl := Option.some.inj hd
      rw [List.length_cons, decide_eq_true_eq,
        ← dlChunks_eq_nil_iff key content start info (off + DL_CHUNK) false,
        ← List.length_eq_zero_iff]
      omega
    | succ i =>
      rw [List.getElem?_cons_succ] at hd
      rw [ih i hd, List.length_cons]
      omega

theorem tiles_dlChunks {off : ℕ} (hoff : off < content.length) :
    Tiles (dlChunks key content start info off true) off content where
  nonempty := by
    rw [dlChunks_eq, if_pos hoff]
    exact List.cons_ne_nil _ _
  data := flatten_dlChunks key content start info off true
  offset := offset_dlChunks key content start info off true
  size := size_dlChunks key content start info off true
  first i d hd := by
    rw [is_first_dlChunks key content start info off true i d hd]
    simp
  last := is_last_dlChunks key content start info off true

theorem tiles_emptyReply : Tiles [emptyReply key content.length content.length] content.length
    content where
  nonempty := List.cons_ne_nil _ _
  data := by
    rw [List.drop_length]
    rfl
  offset i d hd := by
    obtain ⟨rfl, rfl⟩ : i = 0 ∧ _ = d := by simpa using List.getElem?_eq_some_iff.1 hd
    rfl
  size d hd := by
    obtain rfl := List.mem_singleton.1 hd
    exact ⟨rfl, rfl⟩
  first i d hd := by
    obtain ⟨rfl, rfl⟩ : i = 0 ∧ _ = d := by simpa using List.getElem?_eq_some_iff.1 hd
    simp [emptyReply]
  last i d hd := by
    obtain ⟨rfl, rfl⟩ : i = 0 ∧ _ = d := by simpa using List.getElem?_eq_some_iff.1 hd
    simp [emptyReply]

end

variable {root : Bytes} {key : MissionFileKey}

theorem MissionFileKey.of_path {p : Bytes} (h : key.path root = some p) :
    key.valid = true ∧ ∃ dir, key.dir root = some dir ∧ p = join dir key.filenameStr := by
  unfold MissionFileKey.path at h
  split_ifs at h with hvalid
  obtain ⟨dir, hdir, rfl⟩ := Option.map_eq_some_iff.1 h
  exact ⟨hvalid, dir, hdir, rfl⟩

theorem handleDlReq_refused (h : key.path root = none) (fs : ArchiveFs) (n : ℕ) :
    handleDlReq root fs ⟨key, n⟩ = [] := by
  unfold handleDlReq
  unfold MissionFileKey.path at h
  by_cases hvalid : key.valid = true
  · rw [if_pos hvalid, Option.map_eq_none_iff] at h
    simp only [if_neg (not_not.2 hvalid), h]
  · simp only [if_pos hvalid]

theorem handleDlReq_missing {p : Bytes} (hp : key.path root = some p) {fs : ArchiveFs}
    (hread : fs.read p = none) (n : ℕ) :
    handleDlReq root fs ⟨key, n⟩ = [emptyReply key 0 0] := by
  obtain ⟨hvalid, dir, hdir, rfl⟩ := MissionFileKey.of_path hp
  simp only [handleDlReq, if_neg (not_not.2 hvalid), hdir, hread]

theorem handleDlReq_upToDate {p content : Bytes} (hp : key.path root = some p) {fs : ArchiveFs}
    (hread : fs.read p = some content) {n : ℕ} (hn : content.length ≤ n) :
    handleDlReq root fs ⟨key, n⟩ = [emptyReply key content.length content.length] := by
  obtain ⟨hvalid, dir, hdir, rfl⟩ := MissionFileKey.of_path hp
  simp only [handleDlReq, if_neg (not_not.2 hvalid), hdir, hread, Nat.min_eq_right hn, le_refl,
    if_true]

/-- The packets that answer a request tile what lies behind its offset. -/
theorem tiles_handleDlReq {p content : Bytes} (hp : key.path root = some p) {fs : ArchiveFs}
    (hread : fs.read p = some content) (n : ℕ) :
    Tiles (handleDlReq root fs ⟨key, n⟩) (min n content.length) content := by
  rcases Nat.lt_or_ge n content.length with hlt | hge
  · obtain ⟨hvalid, dir, hdir, rfl⟩ := MissionFileKey.of_path hp
    simp only [handleDlReq, if_neg (not_not.2 hvalid), hdir, hread, Nat.min_eq_left hlt.le,
      if_neg (not_le.2 hlt)]
    exact tiles_dlChunks key content _ _ hlt
  · rw [handleDlReq_upToDate hp hread hge, Nat.min_eq_right hge]
    exact tiles_emptyReply key content

/-! ## What the viewer gets -/

theorem onDlData_more {c : DlClient} {d : PktMissionFileDlData} {pre : Bytes}
    (hactive : c.g_dl_active = true) (hfile : c.file = some pre) (hoff : d.offset = pre.length)
    (hlast : d.is_last = false) :
    (onDlData c d).g_dl_active = true ∧ (onDlData c d).file = some (pre ++ d.data) := by
  have hwrite : pwrite d.offset d.data pre = pre ++ d.data := by
    rw [hoff, MissionPush.pwrite_length]
  simp only [onDlData, hactive, not_true_eq_false, if_false, hlast, Bool.false_eq_true]
  by_cases hdata : d.data = []
  · simp only [hdata, ne_eq, not_true_eq_false, if_false, List.append_nil]
    split_ifs <;> simp [hactive, hfile]
  · simp only [ne_eq, hdata, not_false_eq_true, if_true]
    split_ifs <;> simp [hactive, hfile, hwrite]

theorem onDlData_last {c : DlClient} {d : PktMissionFileDlData} {pre : Bytes}
    (hactive : c.g_dl_active = true) (hfile : c.file = some pre) (hoff : d.offset = pre.length)
    (hlast : d.is_last = true) :
    (onDlData c d).g_dl_active = false ∧ ∀ b ∈ (onDlData c d).file, b = pre ++ d.data := by
  have hwrite : pwrite d.offset d.data pre = pre ++ d.data := by
    rw [hoff, MissionPush.pwrite_length]
  simp only [onDlData, hactive, not_true_eq_false, if_false, hlast, if_true, true_and]
  intro b hb
  by_cases hdata : d.data = []
  · simp only [hdata, ne_eq, not_true_eq_false, if_false] at hb
    rw [hdata, List.append_nil]
    split_ifs at hb <;> simp_all
  · simp only [ne_eq, hdata, not_false_eq_true, if_true] at hb
    split_ifs at hb <;> simp_all

section

variable {ds : List PktMissionFileDlData} {content pre : Bytes} {c : DlClient}

/-- As long as the last chunk has not come, the viewer has what it had and the chunks that came. -/
theorem receive_part (h : Tiles ds pre.length content) (hactive : c.g_dl_active = true)
    (hfile : c.file = some pre) {n : ℕ} (hn : n < ds.length) :
    ((ds.take n).foldl onDlData c).g_dl_active = true ∧
      ((ds.take n).foldl onDlData c).file =
        some (pre ++ ((ds.take n).map PktMissionFileDlData.data).flatten) := by
  induction n with
  | zero => exact ⟨hactive, by simp [hfile]⟩
  | succ n ih =>
    obtain ⟨hactive', hfile'⟩ := ih (by omega)
    obtain ⟨d, hd⟩ : ∃ d, ds[n]? = some d := ⟨_, List.getElem?_eq_getElem (by omega)⟩
    have hoff := h.offset n d hd
    have hlast : d.is_last = false := by
      rw [← Bool.not_eq_true, h.last n d hd]
      omega
    rw [← List.length_append] at hoff
    have hstep := onDlData_more hactive' hfile' hoff hlast
    rw [List.take_add_one, hd, Option.toList_some, List.foldl_append, List.map_append,
      List.flatten_append]
    simpa using hstep

/-- When the last chunk has come, the viewer has what it had and all that lay behind it. -/
theorem receive_all (h : Tiles ds pre.length content) (hactive : c.g_dl_active = true)
    (hfile : c.file = some pre) :
    (ds.foldl onDlData c).g_dl_active = false ∧
      ∀ b ∈ (ds.foldl onDlData c).file, b = pre ++ content.drop pre.length := by
  have hpos := List.length_pos_of_ne_nil h.nonempty
  obtain ⟨n, hn⟩ : ∃ n, ds.length = n + 1 := ⟨ds.length - 1, by omega⟩
  obtain ⟨hactive', hfile'⟩ := receive_part h hactive hfile (n := n) (by omega)
  obtain ⟨d, hd⟩ : ∃ d, ds[n]? = some d := ⟨_, List.getElem?_eq_getElem (by omega)⟩
  have hoff := h.offset n d hd
  rw [← List.length_append] at hoff
  have hstep := onDlData_last hactive' hfile' hoff ((h.last n d hd).2 (by omega))
  have hsplit : ds = ds.take n ++ [d] := by
    have htake : ds.take (n + 1) = ds := by rw [← hn, List.take_length]
    rw [List.take_add_one, hd, Option.toList_some] at htake
    exact htake.symm
  have hdata : content.drop pre.length =
      ((ds.take n).map PktMissionFileDlData.data).flatten ++ d.data := by
    rw [← h.data]
    conv_lhs => rw [hsplit]
    simp
  have hfold : ds.foldl onDlData c = onDlData ((ds.take n).foldl onDlData c) d := by
    conv_lhs => rw [hsplit]
    simp
  rw [hfold, hdata, ← List.append_assoc]
  exact hstep

end

/-! ## Runs -/

section

variable {z : Zstd}

/-- What holds between the events: the file's content is among those that it has had. -/
structure Followed (root : Bytes) (key : MissionFileKey) (s : Download) : Prop where
  current : ∀ c ∈ s.content root key, c ∈ s.had
  unmixed : s.Unmixed

/-- A request that finds the head of the file ends with its content. -/
theorem unmixed_attempt {s : Download} (h : Followed root key s) {n : ℕ}
    (hheads : (DlEvent.attempt n).Heads root key s) :
    ((DlEvent.attempt n).apply z root key s).Unmixed := by
  intro hended b hb
  rw [attempt_client] at hended hb
  rw [attempt_had]
  cases hp : key.path root with
  | none =>
    -- no answer, so no last chunk
    rw [Download.reply, handleDlReq_refused hp, List.take_nil] at hended
    exact Bool.noConfusion hended
  | some p =>
    cases hread : s.archive.fs.read p with
    | none =>
      -- the viewer has nothing, and takes the answer for what it is
      have hnone : s.content root key = none := by
        rw [Download.content, hp]
        exact hread
      have hnil : s.client.received = [] := by
        rcases hheads with hnil | ⟨c, hc, -⟩
        · exact hnil
        · rw [hnone] at hc
          cases hc
      rw [Download.reply, handleDlReq_missing hp hread] at hended hb
      cases n with
      | zero => exact Bool.noConfusion hended
      | succ n =>
        rw [List.take_succ_cons, List.take_nil] at hb
        simp [onDlData, startDownload, emptyReply, hnil] at hb
    | some content =>
      have hcontent : s.content root key = some content := by
        rw [Download.content, hp]
        exact hread
      have hhead : s.client.received <+: content := by
        rcases hheads with hnil | ⟨c, hc, hhead⟩
        · rw [hnil]
          exact List.nil_prefix
        · rw [hcontent] at hc
          obtain rfl := Option.some.inj hc
          exact hhead
      have htiles := tiles_handleDlReq hp hread s.client.received.length
      rw [Nat.min_eq_left hhead.length_le] at htiles
      rcases Nat.lt_or_ge n (s.reply root key).length with hlt | hge
      · -- the last chunk has not come
        have hpart := (receive_part htiles (c := startDownload s.client) rfl rfl hlt).1
        exact Bool.noConfusion (hpart.symm.trans hended)
      · rw [List.take_of_length_le hge] at hb
        have hall := (receive_all htiles (c := startDownload s.client) rfl rfl).2 b hb
        rw [hall, List.prefix_iff_eq_append.1 hhead]
        exact h.current content hcontent

/-- An event keeps what holds between the events, if each request finds the head of the file. -/
theorem followed_step {s : Download} {e : DlEvent} (h : Followed root key s)
    (hheads : e.Heads root key s) : Followed root key (e.apply z root key s) := by
  cases e with
  | attempt n => exact ⟨h.current, unmixed_attempt h hheads⟩
  | archive o =>
    constructor
    · intro c hc
      exact List.mem_append_right _ (Option.mem_toList.2 hc)
    · intro hended b hb
      exact List.mem_append_left _ (h.unmixed hended b hb)

/-- In a run whose requests all find what the viewer has at the head of the file, the viewer never
ends with anything but what the file held at some moment; and whatever the offset and the file, the
packets that answer a request tile what lies behind. -/
theorem unmixed_of_heads (z : Zstd) (root : Bytes) (key : MissionFileKey) :
    (∀ (archive : State) (es : List DlEvent),
      (∀ es' e, es' ++ [e] <+: es → e.Heads root key (downloaded z root key archive es')) →
        ∀ es', es' <+: es → (downloaded z root key archive es').Unmixed) ∧
      ∀ (fs : ArchiveFs) (p content : Bytes) (n : ℕ), key.path root = some p →
        fs.read p = some content →
          Tiles (handleDlReq root fs ⟨key, n⟩) (min n content.length) content := by
  constructor
  · intro archive es hes es' hpre
    have hstart : Followed root key (Download.start root key archive) := by
      constructor
      · intro c hc
        exact Option.mem_toList.2 hc
      · intro _ b hb
        cases hb
    have hall := forall_prefix_foldl (Q := Followed root key)
      (fun s e hs he => followed_step (z := z) hs he) hstart hes
    exact (hall es' hpre).unmixed
  · intro fs p content n hp hread
    exact tiles_handleDlReq hp hread n

/-! ## What becomes of the head of a file -/

theorem head_writeRow {s : State} {p c : Bytes} (hread : s.fs.read p = some c) (r : ℕ)
    (fname row : Bytes) (now : ℕ) :
    ∃ c', (writeRow r fname row now s).fs.read p = some c' ∧ c <+: c' := by
  cases hst : (s.rooms r).hist_streams.lookup fname with
  | none =>
    simp only [writeRow, hst]
    exact ⟨c, hread, List.prefix_rfl⟩
  | some st =>
    simp only [writeRow, hst, State.setRoom_fs, State.write_fs, Fs.read_write]
    split_ifs with hp
    · -- the row goes behind what the file holds
      have hc : s.fs.content st.fp = c := by
        rw [Fs.read, hp] at hread
        exact Option.some.inj hread
      exact ⟨_, rfl, by rw [hc]; exact List.prefix_append _ _⟩
    · exact ⟨c, hread, List.prefix_rfl⟩

/-! ## A file that takes two chunks -/

theorem dlChunks_first (key : MissionFileKey) (info : Bytes) {content : Bytes}
    (hlong : DL_CHUNK < content.length) :
    ((dlChunks key content 0 info 0 true).take 1).map PktMissionFileDlData.data =
        [content.take DL_CHUNK] ∧
      1 < (dlChunks key content 0 info 0 true).length := by
  have hpos := DL_CHUNK_pos
  have hne : dlChunks key content 0 info (0 + DL_CHUNK) false ≠ [] := by
    rw [Ne, dlChunks_eq_nil_iff]
    omega
  have hlen := List.length_pos_of_ne_nil hne
  rw [dlChunks_eq, if_pos (hpos.trans hlong)]
  constructor
  · rw [List.take_succ_cons, List.take_zero, List.map_cons, List.map_nil, List.drop_zero]
  · rw [List.length_cons]
    omega

theorem received_cut {s : Download} {p content : Bytes} (hp : key.path root = some p)
    (hread : s.archive.fs.read p = some content) (hlong : DL_CHUNK < content.length)
    (hnil : s.client.received = []) :
    ((DlEvent.attempt 1).apply z root key s).client.received = content.take DL_CHUNK := by
  have hpos := DL_CHUNK_pos
  have htiles := tiles_handleDlReq hp hread s.client.received.length
  rw [hnil, List.length_nil, Nat.zero_min] at htiles
  have hreply : s.reply root key = handleDlReq root s.archive.fs ⟨key, 0⟩ := by
    rw [Download.reply, hnil, List.length_nil]
  have hfirst : ((handleDlReq root s.archive.fs ⟨key, 0⟩).take 1).map PktMissionFileDlData.data =
        [content.take DL_CHUNK] ∧ 1 < (handleDlReq root s.archive.fs ⟨key, 0⟩).length := by
    obtain ⟨hvalid, dir, hdir, rfl⟩ := MissionFileKey.of_path hp
    simp only [handleDlReq, if_neg (not_not.2 hvalid), hdir, hread, Nat.zero_min,
      if_neg (not_le.2 (hpos.trans hlong)), if_true]
    exact dlChunks_first key _ hlong
  have hfile : (startDownload s.client).file = some [] := by rw [startDownload, hnil]
  have hpart := receive_part htiles rfl hfile hfirst.2
  rw [hfirst.1] at hpart
  rw [attempt_client, hreply, DlClient.received, hpart.2]
  simp

/-- A request that finds a file no longer than what the viewer has: the viewer is told that it has
the last chunk, and has what it had. -/
theorem client_upToDate {s : Download} {p content : Bytes} (hp : key.path root = some p)
    (hread : s.archive.fs.read p = some content) (hne : content ≠ [])
    (hlen : content.length ≤ s.client.received.length) :
    ((DlEvent.attempt 1).apply z root key s).client.g_dl_active = false ∧
      ((DlEvent.attempt 1).apply z root key s).client.file = some s.client.received := by
  have hpos : content.length ≠ 0 := (List.length_pos_of_ne_nil hne).ne'
  have hreply : s.reply root key = [emptyReply key content.length content.length] :=
    handleDlReq_upToDate hp hread hlen
  rw [attempt_client, hreply, List.take_succ_cons, List.take_zero, List.foldl_cons, List.foldl_nil]
  simp [onDlData, emptyReply, startDownload, hpos]

/-- A chunk of zeros and one more. -/
def longFile : Bytes := List.replicate (DL_CHUNK + 1) 0

/-- An archive in which that is a recording that is open. -/
def longRecording : State :=
  let stream : MissionHistStream :=
    { archive_path := ascii "r/S/2026/A1/hist/a.bewehist", fp := 0, station := ascii "S"
      year := 2026, code := ascii "A1", fft_size := 1, rows_written := 0, start_utc := 0, q := none }
  { idleArchive [("r/S/2026/A1/hist/a.bewehist", longFile)] with
    rooms := fun _ => ⟨none, ∅, (∅ : AList fun _ : Bytes => MissionHistStream).insert (ascii "a")
      stream⟩ }

theorem path_keyOfA : keyOfA.path (ascii "r") = some (ascii "r/S/2026/A1/hist/a.bewehist") := by
  decide

theorem read_longRecording :
    longRecording.fs.read (ascii "r/S/2026/A1/hist/a.bewehist") = some longFile := rfl

/-- The viewer's request is cut off after the first of the two chunks. -/
theorem received_longRecording : ((DlEvent.attempt 1).apply z (ascii "r") keyOfA
    (Download.start (ascii "r") keyOfA longRecording)).client.received =
      List.replicate DL_CHUNK 0 := by
  have hlong : DL_CHUNK < longFile.length := by
    rw [longFile, List.length_replicate]
    exact Nat.lt_succ_self _
  have hcut := received_cut (z := z) (s := Download.start (ascii "r") keyOfA longRecording)
    path_keyOfA read_longRecording hlong rfl
  rw [hcut, longFile, List.take_replicate, Nat.min_eq_left (Nat.le_succ _)]

/-- A row is appended before the viewer asks for the rest. -/
def appendedBetween : List DlEvent :=
  [.attempt 1, .archive (.liveRow 0 (ascii "a") [7] 0), .attempt 1]

theorem unmixed_appendedBetween :
    (∀ es', es' <+: appendedBetween →
      (downloaded storedZstd (ascii "r") keyOfA longRecording es').Unmixed) ∧
    Tiles (handleDlReq (ascii "r") longRecording.fs ⟨keyOfA, 7⟩) (min 7 longFile.length)
      longFile := by
  constructor
  · refine (unmixed_of_heads storedZstd (ascii "r") keyOfA).1 longRecording appendedBetween ?_
    refine forall_prefix_cons (Or.inl rfl) (forall_prefix_cons trivial
      (forall_prefix_cons (Or.inr ?_) forall_prefix_nil))
    -- the file holds the zeros and the row
    have hrow : onLiveRow storedZstd 0 (ascii "a") [7] 0 longRecording =
        writeRow 0 (ascii "a") [7] 0 longRecording := by rfl
    obtain ⟨c, hc, hhead⟩ := head_writeRow read_longRecording 0 (ascii "a") [7] 0
    refine ⟨c, ?_, ?_⟩
    · change ((keyOfA.path (ascii "r")).bind
        (onLiveRow storedZstd 0 (ascii "a") [7] 0 longRecording).fs.read) = some c
      rw [hrow, path_keyOfA]
      exact hc
    · rw [archive_client, received_longRecording]
      refine List.IsPrefix.trans ?_ hhead
      rw [longFile, List.replicate_succ']
      exact List.prefix_append _ _
  · exact (unmixed_of_heads storedZstd (ascii "r") keyOfA).2 longRecording.fs _ longFile 7
      path_keyOfA read_longRecording

/-- A file of one byte is uploaded in its place: META, and DATA. -/
def replaceOpened : FileOp := .op (.pushMeta 0 ⟨keyOfA, 1, 5, 0, []⟩ PushFaults.none 0)
@[inherit_doc replaceOpened] def replacePushed : FileOp :=
  .pushData 0 ⟨5, true, 0, [1]⟩ PushFaults.none noFaults 0

/-- That happens before the viewer asks for the rest. -/
def replacedBetween : List DlEvent :=
  [.attempt 1, .archive replaceOpened, .archive replacePushed, .attempt 1]

/-- The viewer is told that it has the last chunk, and has the first chunk of the file that was
replaced. -/
theorem not_unmixed_replacedBetween :
    ¬(downloaded storedZstd (ascii "r") keyOfA longRecording replacedBetween).Unmixed := by
  have hopened : (replaceOpened.apply storedZstd (ascii "r") longRecording).fs.read
      (ascii "r/S/2026/A1/hist/a.bewehist") = some [] := by decide
  have hpushed : (replacePushed.apply storedZstd (ascii "r")
      (replaceOpened.apply storedZstd (ascii "r") longRecording)).fs.read
        (ascii "r/S/2026/A1/hist/a.bewehist") = some [1] := by decide
  have hreceived := received_longRecording (z := storedZstd)
  simp only [downloaded, replacedBetween, List.foldl_cons, List.foldl_nil]
  -- after the request that is cut off
  generalize hs1 : DlEvent.apply storedZstd (ascii "r") keyOfA
    (Download.start (ascii "r") keyOfA longRecording) (.attempt 1) = s1
  rw [hs1] at hreceived
  have harchive1 : s1.archive = longRecording := by rw [← hs1, attempt_archive, Download.start]
  have hhad1 : s1.had = [longFile] := by
    rw [← hs1, attempt_had, Download.start, path_keyOfA, Option.bind_some, read_longRecording,
      Option.toList_some]
  -- before the last request
  generalize hs3 : DlEvent.apply storedZstd (ascii "r") keyOfA (DlEvent.apply storedZstd
    (ascii "r") keyOfA s1 (.archive replaceOpened)) (.archive replacePushed) = s3
  have hclient3 : s3.client = s1.client := by rw [← hs3, archive_client, archive_client]
  have hread3 : s3.archive.fs.read (ascii "r/S/2026/A1/hist/a.bewehist") = some [1] := by
    rw [← hs3, archive_archive, archive_archive, harchive1]
    exact hpushed
  have hhad3 : s3.had = [longFile, [], [1]] := by
    rw [← hs3, archive_had, archive_archive, archive_had, harchive1, hhad1, path_keyOfA,
      Option.bind_some, Option.bind_some, hopened, hpushed]
    rfl
  rw [← hclient3] at hreceived
  have hzeros : (List.replicate DL_CHUNK (0 : UInt8)).length = DL_CHUNK := by
    rw [List.length_replicate]
  have hshort : [(1 : UInt8)].length ≤ s3.client.received.length := by
    rw [hreceived, hzeros]
    exact DL_CHUNK_pos
  obtain ⟨hended, hfile⟩ := client_upToDate (z := storedZstd) path_keyOfA hread3
    (List.cons_ne_nil _ _) hshort
  intro hunmixed
  have hmem := hunmixed hended _ hfile
  rw [attempt_had, hreceived, hhad3] at hmem
  -- it is of another length than each of the three
  have hlen := DL_CHUNK_pos
  have hlong : longFile.length = DL_CHUNK + 1 := by rw [longFile, List.length_replicate]
  have hchunk : DL_CHUNK ≠ 1 := by decide
  rcases List.mem_cons.1 hmem with h | hmem
  · have := congrArg List.length h
    omega
  rcases List.mem_cons.1 hmem with h | hmem
  · have := congrArg List.length h
    rw [hzeros, List.length_nil] at this
    omega
  · have := congrArg List.length (List.mem_singleton.1 hmem)
    rw [hzeros, List.length_singleton] at this
    exact hchunk this

end

end Bewe.Archive
