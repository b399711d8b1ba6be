import Bewe.Database.Store

/-!
# Downloads from the database

DB_DL_REQ at Central, which reads a stored file in chunks, and `on_central_db_dl_data`, with which
HOST puts them together again. `feof` does not see the end of a file after a read that was full, so
the last chunk of a file of whole chunks does not say that it is the last, and HOST's file stays
open: `returned_iff` says that all other files come back, if their names are found. A name that was
changed to be unique may be looked for in another directory than the one where the file is.
-/

namespace Bewe.Database

open Lib Archive
open MissionPush (Sender)
open Saved (Chars)

/-! ## Central -/

/-- The path that DB_DL_REQ reads; if there is no file, that in the directory of the name. -/
def dlPath (base : Bytes) (fs : ArchiveFs) (fn : Bytes) : Bytes :=
  let primary := join (join base (dbSubdirFor fn)) fn
  let others := [join (join base (ascii "iq")) fn, join (join base (ascii "audio")) fn,
    join (join base (ascii "hist")) fn, join base fn]
  if (fs.find primary).isSome then primary
  else (others.find? fun p => (fs.find p).isSome).getD primary

/-- `PktDbDownloadData` and the bytes behind it. -/
structure PktDbDownloadData where
  filename : Chars 128
  total_bytes : ℕ
  chunk_bytes : ℕ
  is_first : Bool
  is_last : Bool
  data : Bytes

/-- `PktDbDownloadInfo`. -/
structure PktDbDownloadInfo where
  filename : Chars 128
  info_data : Chars 1024

/-- The packets of the loop over a file, of which `rest` is still to be read. -/
def dlData (fn : Bytes) (total_bytes : ℕ) (first : Bool) (rest : Bytes) :
    List PktDbDownloadData :=
  let chunk := rest.take CHUNK
  -- only a read that comes short sees the end of the file
  let eof := rest.length < CHUNK
  if chunk = [] ∧ ¬first then []
  else
    let pkt : PktDbDownloadData :=
      { filename := .ofStr 128 (fn.take 127)
        total_bytes := total_bytes
        chunk_bytes := chunk.length
        is_first := first
        is_last := chunk = [] ∨ eof
        data := chunk }
    if chunk = [] ∨ eof then [pkt]
    else pkt :: dlData fn total_bytes false (rest.drop CHUNK)
termination_by rest.length
decreasing_by
  rename_i hmore
  have hpos : 0 < CHUNK := by decide
  have hlen : 0 < rest.length := hpos.trans_le (not_lt.1 (not_or.1 hmore).2)
  rw [List.length_drop]
  exact Nat.sub_lt hlen hpos

/-- The packets with which Central answers DB_DL_REQ. -/
structure DlReply where
  info : PktDbDownloadInfo
  data : List PktDbDownloadData

/-- DB_DL_REQ. -/
def dbDlReq (base : Bytes) (fs : ArchiveFs) (filename : Chars 128) : Option DlReply :=
  let fn := filename.str
  if ¬dbFilenameSafe fn then none
  else
    let path := dlPath base fs fn
    (fs.read path).map fun content =>
      { info :=
          { filename := .ofStr 128 (fn.take 127)
            info_data := .ofStr 1024 (((fs.read (sidecarPath path)).getD []).take 1023) }
        data := dlData fn content.length true content }

/-! ## HOST -/

/-- The directories of HOST that a file is downloaded into. -/
structure DlDirs where
  record_iq : Bytes
  record_audio : Bytes
  tle : Bytes
  frame : Bytes

/-- `is_tle_snapshot`. -/
def isTleSnapshot (fn : Bytes) : Bool :=
  (ascii "leo_" <+: fn ∨ ascii "all_" <+: fn) ∧ 4 < fn.length ∧ ascii ".txt" <:+ fn

/-- The path of a file that HOST downloads. -/
def dlTarget (dirs : DlDirs) (fn : Bytes) : Bytes :=
  let dir :=
    if isTleSnapshot fn then dirs.tle
    else if ascii "SATFRAME_" <+: fn then dirs.frame
    else if contains (ascii "IQ") fn then dirs.record_iq
    else dirs.record_audio
  join dir fn

/-- The files of HOST and `host_db_dl_fp`. -/
structure DlReceiver where
  fs : ArchiveFs
  host_db_dl_fp : Option DbFile

/-- `on_central_db_dl_data`. -/
def onDlData (dirs : DlDirs) (s : DlReceiver) (d : PktDbDownloadData) : DlReceiver :=
  let s : DlReceiver :=
    if d.is_first then
      let opened := s.fs.create (dlTarget dirs d.filename.str) []
      { fs := opened.1, host_db_dl_fp := some ⟨opened.2, 0⟩ }
    else s
  match s.host_db_dl_fp with
  | none => s
  | some f =>
    let chunk := d.data.take d.chunk_bytes
    { fs := s.fs.write f.file (pwrite f.pos chunk (s.fs.content f.file))
      host_db_dl_fp := if d.is_last then none else some ⟨f.file, f.pos + chunk.length⟩ }

/-- What HOST has when the packets have come. -/
def receive (dirs : DlDirs) (s : DlReceiver) (ds : List PktDbDownloadData) : DlReceiver :=
  ds.foldl (onDlData dirs) s

/-! ## What is to hold -/

/-- The first packet, and only it, says that it is the first, and the last one that it is the last.
-/
structure Marked (ds : List PktDbDownloadData) : Prop where
  nonempty : ds ≠ []
  first : ∀ (i : ℕ) d, ds[i]? = some d → (d.is_first = true ↔ i = 0)
  last : ∀ (i : ℕ) d, ds[i]? = some d → (d.is_last = true ↔ i + 1 = ds.length)

/-- How `cmd_db_download` asks for a name. -/
def dlRequest (fn : Bytes) : Chars 128 := .ofStr 128 (fn.take 127)

/-- Who asks for a name gets the file at a path: it is found, its packets are marked and hold it,
and HOST ends with a closed file of the same bytes. -/
def Returned (base : Bytes) (dirs : DlDirs) (fs : ArchiveFs) (fn path content : Bytes) : Prop :=
  dlPath base fs (dlRequest fn).str = path ∧
    ∃ reply, dbDlReq base fs (dlRequest fn) = some reply ∧ Marked reply.data ∧
      (reply.data.map PktDbDownloadData.data).flatten = content ∧
      ∀ s : DlReceiver, (receive dirs s reply.data).host_db_dl_fp = none ∧
        (receive dirs s reply.data).fs.read (dlTarget dirs fn) = some content

/-! ## Packets -/

section

variable (fn : Bytes) (total_bytes : ℕ)

theorem dlData_nil (first : Bool) : dlData fn total_bytes first [] =
    if first then [⟨.ofStr 128 (fn.take 127), total_bytes, 0, true, true, []⟩] else [] := by
  rw [dlData]
  cases first <;> simp

theorem dlData_short {rest : Bytes} (hrest : rest ≠ []) (hlen : rest.length < CHUNK)
    (first : Bool) : dlData fn total_bytes first rest =
      [⟨.ofStr 128 (fn.take 127), total_bytes, rest.length, first, true, rest⟩] := by
  have htake : rest.take CHUNK = rest := List.take_of_length_le hlen.le
  rw [dlData]
  simp only [htake, hrest, hlen, false_and, if_false, or_true, if_true, decide_true]

theorem dlData_full {rest : Bytes} (hlen : CHUNK ≤ rest.length) (first : Bool) :
    dlData fn total_bytes first rest =
      ⟨.ofStr 128 (fn.take 127), total_bytes, CHUNK, first, false, rest.take CHUNK⟩ ::
        dlData fn total_bytes false (rest.drop CHUNK) := by
  have hchunk : (rest.take CHUNK).length = CHUNK := by
    rw [List.length_take, Nat.min_eq_left hlen]
  have hne : rest.take CHUNK ≠ [] := by
    intro h
    rw [h] at hchunk
    exact absurd hchunk (by decide)
  rw [dlData]
  simp only [hne, false_and, if_false, not_lt.2 hlen, or_self, hchunk, decide_false]

/-- The packets by what is left to read: nothing, less than a chunk, or a chunk and the rest. -/
theorem dlData_induction {P : Bool → Bytes → Prop} (hnil : ∀ first, P first [])
    (hshort : ∀ first (rest : Bytes), rest ≠ [] → rest.length < CHUNK → P first rest)
    (hfull : ∀ first (rest : Bytes), CHUNK ≤ rest.length → P false (rest.drop CHUNK) →
      P first rest) (first : Bool) (rest : Bytes) : P first rest := by
  have hpos : 0 < CHUNK := by decide
  induction hn : rest.length using Nat.strong_induction_on generalizing first rest with
  | _ n ih =>
    rcases eq_or_ne rest [] with rfl | hne
    · exact hnil first
    · rcases lt_or_ge rest.length CHUNK with hlt | hge
      · exact hshort first rest hne hlt
      · refine hfull first rest hge (ih _ ?_ false _ rfl)
        rw [List.length_drop]
        omega

theorem flatten_dlData (first : Bool) (rest : Bytes) :
    ((dlData fn total_bytes first rest).map PktDbDownloadData.data).flatten = rest := by
  induction first, rest using dlData_induction with
  | hnil first =>
    rw [dlData_nil]
    cases first <;> rfl
  | hshort first rest hne hlt =>
    rw [dlData_short fn total_bytes hne hlt]
    simp
  | hfull first rest hlen ih =>
    rw [dlData_full fn total_bytes hlen, List.map_cons, List.flatten_cons, ih]
    exact List.take_append_drop _ _

theorem is_first_dlData (first : Bool) (rest : Bytes) (i : ℕ) (d : PktDbDownloadData)
    (hd : (dlData fn total_bytes first rest)[i]? = some d) :
    d.is_first = true ↔ i = 0 ∧ first = true := by
  induction first, rest using dlData_induction generalizing i with
  | hnil first =>
    rw [dlData_nil] at hd
    cases first with
    | false => simp at hd
    | true =>
      obtain ⟨rfl, rfl⟩ : i = 0 ∧ _ = d := by simpa using List.getElem?_eq_some_iff.1 hd
      simp
  | hshort first rest hne hlt =>
    rw [dlData_short fn total_bytes hne hlt] at hd
    obtain ⟨rfl, rfl⟩ : i = 0 ∧ _ = d := by simpa using List.getElem?_eq_some_iff.1 hd
    simp
  | hfull first rest hlen ih =>
    rw [dlData_full fn total_bytes hlen] at hd
    cases i with
    | zero =>
      obtain rfl := Option.some.inj hd
      simp
    | succ i =>
      have := ih i hd
      simp only [Bool.false_eq_true, and_false, iff_false] at this
      simp [this]

theorem dvd_drop {rest : Bytes} (hlen : CHUNK ≤ rest.length) :
    CHUNK ∣ (rest.drop CHUNK).length ↔ CHUNK ∣ rest.length := by
  calc CHUNK ∣ (rest.drop CHUNK).length
    _ ↔ CHUNK ∣ rest.length - CHUNK + CHUNK := by
      rw [List.length_drop, Nat.dvd_add_self_right]
    _ ↔ CHUNK ∣ rest.length := by rw [Nat.sub_add_cancel hlen]

theorem is_last_of_whole (first : Bool) (rest : Bytes) (hwhole : CHUNK ∣ rest.length)
    (hsome : rest ≠ [] ∨ first = false) :
    ∀ d ∈ dlData fn total_bytes first rest, d.is_last = false := by
  induction first, rest using dlData_induction with
  | hnil first =>
    obtain rfl : first = false := hsome.resolve_left fun h => h rfl
    simp [dlData_nil]
  | hshort first rest hne hlt =>
    have hpos : 0 < rest.length := List.length_pos_of_ne_nil hne
    exact absurd (Nat.le_of_dvd hpos hwhole) (not_le.2 hlt)
  | hfull first rest hlen ih =>
    rw [dlData_full fn total_bytes hlen]
    intro d hd
    rcases List.mem_cons.1 hd with rfl | hd
    · rfl
    · exact ih ((dvd_drop hlen).2 hwhole) (Or.inr rfl) d hd

theorem is_last_of_not_whole (first : Bool) (rest : Bytes)
    (hends : ¬CHUNK ∣ rest.length ∨ rest = [] ∧ first = true) :
    dlData fn total_bytes first rest ≠ [] ∧ ∀ (i : ℕ) d,
      (dlData fn total_bytes first rest)[i]? = some d →
        (d.is_last = true ↔ i + 1 = (dlData fn total_bytes first rest).length) := by
  induction first, rest using dlData_induction with
  | hnil first =>
    obtain rfl : first = true := by
      rcases hends with hends | hends
      · exact absurd (by simp) hends
      · exact hends.2
    rw [dlData_nil]
    refine ⟨by simp, fun i d hd => ?_⟩
    obtain ⟨rfl, rfl⟩ : i = 0 ∧ _ = d := by simpa using List.getElem?_eq_some_iff.1 hd
    simp
  | hshort first rest hne hlt =>
    rw [dlData_short fn total_bytes hne hlt]
    refine ⟨by simp, fun i d hd => ?_⟩
    obtain ⟨rfl, rfl⟩ : i = 0 ∧ _ = d := by simpa using List.getElem?_eq_some_iff.1 hd
    simp
  | hfull first rest hlen ih =>
    have hnot : ¬CHUNK ∣ rest.length := by
      rcases hends with hends | ⟨rfl, -⟩
      · exact hends
      · exact absurd hlen (by decide)
    obtain ⟨hsome, hlast⟩ := ih (Or.inl (mt (dvd_drop hlen).1 hnot))
    rw [dlData_full fn total_bytes hlen]
    refine ⟨by simp, fun i d hd => ?_⟩
    cases i with
    | zero =>
      obtain rfl := Option.some.inj hd
      have hpos := List.length_pos_of_ne_nil hsome
      simp only [Bool.false_eq_true, List.length_cons, false_iff]
      omega
    | succ i =>
      rw [hlast i d hd, List.length_cons]
      omega

/-- The packets of a file are marked unless it is of whole chunks. -/
theorem marked_dlData_iff (content : Bytes) : Marked (dlData fn total_bytes true content) ↔
    ¬(content ≠ [] ∧ CHUNK ∣ content.length) := by
  constructor
  · rintro h ⟨hne, hwhole⟩
    have hlen := List.length_pos_of_ne_nil h.nonempty
    obtain ⟨d, hget⟩ : ∃ d, (dlData fn total_bytes true content)[(dlData fn total_bytes true
        content).length - 1]? = some d := ⟨_, List.getElem?_eq_getElem (by omega)⟩
    have hlast := (h.last _ _ hget).2 (by omega)
    rw [is_last_of_whole fn total_bytes true content hwhole (Or.inl hne) _
      (List.mem_of_getElem? hget)] at hlast
    exact Bool.noConfusion hlast
  · intro h
    have hends : ¬CHUNK ∣ content.length ∨ content = [] ∧ true = true := by
      by_cases hc : content = []
      · exact Or.inr ⟨hc, rfl⟩
      · exact Or.inl fun hwhole => h ⟨hc, hwhole⟩
    obtain ⟨hsome, hlast⟩ := is_last_of_not_whole fn total_bytes true content hends
    refine ⟨hsome, fun i d hd => ?_, hlast⟩
    rw [is_first_dlData fn total_bytes true content i d hd]
    simp

/-! ## Receiver -/

variable (dirs : DlDirs)

/-- A packet that is not the first goes behind what HOST has. -/
theorem onDlData_next {s : DlReceiver} {d : PktDbDownloadData} {i : ℕ} {pre : Bytes}
    (hfirst : d.is_first = false) (hsize : d.chunk_bytes = d.data.length)
    (hfp : s.host_db_dl_fp = some ⟨i, pre.length⟩) (hpre : s.fs.content i = pre) :
    onDlData dirs s d =
      { fs := s.fs.write i (pre ++ d.data)
        host_db_dl_fp := if d.is_last then none else some ⟨i, (pre ++ d.data).length⟩ } := by
  have hall : d.data.take d.chunk_bytes = d.data := by rw [hsize, List.take_length]
  simp only [onDlData, hfirst, Bool.false_eq_true, if_false, hfp, hall, hpre,
    MissionPush.pwrite_length, List.length_append]

/-- What HOST has of a file of which it has a part: the rest of the packets completes it, and closes
it unless the rest is of whole chunks. -/
theorem receive_rest (first : Bool) (rest : Bytes) (hfirst : first = false) (s : DlReceiver)
    (i : ℕ) (pre : Bytes) (hfp : s.host_db_dl_fp = some ⟨i, pre.length⟩)
    (hpre : s.fs.content i = pre) :
    ∃ b, receive dirs s (dlData fn total_bytes first rest) =
        { fs := b
          host_db_dl_fp :=
            if CHUNK ∣ rest.length then some ⟨i, (pre ++ rest).length⟩ else none } ∧
      b.find = s.fs.find ∧ b.content i = pre ++ rest := by
  induction first, rest using dlData_induction generalizing s pre with
  | hnil first =>
    subst hfirst
    refine ⟨s.fs, ?_, rfl, by rw [hpre, List.append_nil]⟩
    rw [dlData_nil]
    simp only [Bool.false_eq_true, if_false, receive, List.foldl_nil, List.length_nil, dvd_zero,
      if_true, List.append_nil]
    rw [← hfp]
  | hshort first rest hne hlt =>
    subst hfirst
    have hnot : ¬CHUNK ∣ rest.length := fun hdvd =>
      absurd (Nat.le_of_dvd (List.length_pos_of_ne_nil hne) hdvd) (not_le.2 hlt)
    refine ⟨s.fs.write i (pre ++ rest), ?_, rfl, Function.update_self _ _ _⟩
    rw [dlData_short fn total_bytes hne hlt, if_neg hnot]
    exact onDlData_next dirs rfl rfl hfp hpre
  | hfull first rest hlen ih =>
    subst hfirst
    have hsize : CHUNK = (rest.take CHUNK).length := by
      rw [List.length_take, Nat.min_eq_left hlen]
    rw [dlData_full fn total_bytes hlen]
    have hstep := onDlData_next dirs (d := ⟨.ofStr 128 (fn.take 127), total_bytes, CHUNK, false,
      false, rest.take CHUNK⟩) rfl hsize hfp hpre
    obtain ⟨b, hb, hfind, hcontent⟩ := ih rfl _ (pre ++ rest.take CHUNK)
      (congrArg DlReceiver.host_db_dl_fp hstep)
      ((congrArg (fun t : DlReceiver => t.fs.content i) hstep).trans
        (Function.update_self _ _ _))
    have hjoin : pre ++ rest.take CHUNK ++ rest.drop CHUNK = pre ++ rest := by
      rw [List.append_assoc, List.take_append_drop]
    rw [hjoin] at hb hcontent
    refine ⟨b, ?_, ?_, hcontent⟩
    · rw [receive, List.foldl_cons]
      refine hb.trans ?_
      simp only [dvd_drop hlen]
    · rw [hfind, hstep]
      rfl

/-- What HOST has of a whole file: it has the bytes, and the file is closed unless they are whole
chunks. -/
theorem receive_dlData (hfn : (Chars.ofStr 128 (fn.take 127)).str = fn) (content : Bytes)
    (s : DlReceiver) :
    (receive dirs s (dlData fn total_bytes true content)).fs.read (dlTarget dirs fn) =
        some content ∧
      ((receive dirs s (dlData fn total_bytes true content)).host_db_dl_fp = none ↔
        ¬(content ≠ [] ∧ CHUNK ∣ content.length)) := by
  set opened := s.fs.create (dlTarget dirs fn) [] with hopened
  have hfind : opened.1.find (dlTarget dirs fn) = some opened.2 := by
    rw [hopened, Fs.find_create, if_pos rfl]
  have hempty : opened.1.content opened.2 = [] := by
    rw [hopened, Fs.content_create, if_pos rfl]
  -- the first packet opens the file and is then like the others
  have hfirst : ∀ d : PktDbDownloadData, d.is_first = true →
      d.filename = .ofStr 128 (fn.take 127) → onDlData dirs s d =
        onDlData dirs ⟨opened.1, some ⟨opened.2, 0⟩⟩ { d with is_first := false } := by
    intro d hd hname
    simp only [onDlData, hd, hname, hfn, if_true, Bool.false_eq_true, if_false]
    rfl
  have hlike : receive dirs s (dlData fn total_bytes true content) =
      if content = [] then ⟨opened.1.write opened.2 [], none⟩
      else receive dirs ⟨opened.1, some ⟨opened.2, 0⟩⟩ (dlData fn total_bytes false content) := by
    rcases eq_or_ne content [] with rfl | hne
    · rw [dlData_nil, if_pos rfl, if_pos rfl, receive, List.foldl_cons, hfirst _ rfl rfl]
      have hs : (⟨opened.1, some ⟨opened.2, 0⟩⟩ : DlReceiver).fs.content opened.2 = [] := hempty
      exact onDlData_next dirs rfl rfl rfl hs
    · rw [if_neg hne]
      rcases lt_or_ge content.length CHUNK with hlt | hge
      · rw [dlData_short fn total_bytes hne hlt, dlData_short fn total_bytes hne hlt, receive,
          List.foldl_cons, hfirst _ rfl rfl]
        rfl
      · rw [dlData_full fn total_bytes hge, dlData_full fn total_bytes hge, receive,
          List.foldl_cons, hfirst _ rfl rfl]
        rfl
  rw [hlike]
  rcases eq_or_ne content [] with rfl | hne
  · rw [if_pos rfl]
    refine ⟨?_, iff_of_true rfl fun h => h.1 rfl⟩
    rw [Fs.read_write, if_pos hfind]
  · rw [if_neg hne]
    obtain ⟨b, hb, hsame, hcontent⟩ := receive_rest fn total_bytes dirs false content rfl
      ⟨opened.1, some ⟨opened.2, 0⟩⟩ opened.2 [] rfl hempty
    rw [hb]
    constructor
    · rw [Fs.read, hsame, hfind, Option.map_some, hcontent, List.nil_append]
    · split_ifs with hwhole
      · exact iff_of_false (by simp) fun h => h ⟨hne, hwhole⟩
      · exact iff_of_true rfl fun h => hwhole h.2

end

/-! ## Names -/

section

variable {base : Bytes}

theorem join_join_inj {a b fn : Bytes} :
    join (join base a) fn = join (join base b) fn ↔ a = b := by
  constructor
  · intro h
    exact join_inj.1 (List.append_cancel_right h)
  · rintro rfl
    rfl

theorem firstFree_mem (isFile : Bytes → Bool) (p : Bytes) (qs : List Bytes) :
    firstFree isFile p qs ∈ p :: qs := by
  induction qs generalizing p with
  | nil => exact List.mem_singleton.2 rfl
  | cons q qs ih =>
    rw [firstFree]
    split_ifs
    · exact List.mem_cons_of_mem _ (ih q)
    · exact List.mem_cons_self

/-- DB_SAVE stores a file in the directory of its name, under that name or one with a number. -/
theorem savePath_eq (base : Bytes) (sender : Sender) (fs : ArchiveFs) (filename : Bytes) :
    ∃ fn, savePath base sender fs filename = join (join base (dbSubdirFor filename)) fn ∧
      (fn = filename ∨ 95 ∈ fn ∧ ∀ c ∈ fn, c ∈ filename ∨ c = 95 ∨ isDigit c = true) := by
  unfold savePath
  dsimp only
  split_ifs
  · exact ⟨filename, rfl, Or.inl rfl⟩
  · have hmem := firstFree_mem (fun p => (fs.find p).isSome)
      (join (join base (dbSubdirFor filename)) filename)
      (dbAlternatives (join base (dbSubdirFor filename)) filename)
    rcases List.mem_cons.1 hmem with heq | halt
    · exact ⟨filename, heq, Or.inl rfl⟩
    · obtain ⟨i, -, hi⟩ := List.mem_map.1 halt
      refine ⟨_, hi.symm, Or.inr ⟨by simp [ascii], fun c hc => ?_⟩⟩
      have hext : extensionOf filename <:+ filename := by
        unfold extensionOf
        split
        · exact List.drop_suffix _ _
        · exact List.nil_suffix
      simp only [List.mem_append] at hc
      rcases hc with ((hc | hc) | hc) | hc
      · exact Or.inl (List.mem_of_mem_take hc)
      · exact Or.inr (Or.inl (by simpa [ascii] using hc))
      · exact Or.inr (Or.inr (isDigit_of_mem_natText hc))
      · exact Or.inl (hext.subset hc)

/-- Where DB_DL_REQ comes to the directory of a file before it finds another one of the name. -/
def Searched (base : Bytes) (fs : ArchiveFs) (sub fn : Bytes) : Prop :=
  let missing sub := fs.find (join (join base sub) fn) = none
  dbSubdirFor fn = sub ∨ missing (dbSubdirFor fn) ∧
    (sub = ascii "iq" ∨ sub = ascii "audio" ∧ missing (ascii "iq") ∨
      sub = ascii "hist" ∧ missing (ascii "iq") ∧ missing (ascii "audio"))

/-- A name that is there is found in its directory exactly if that comes first. -/
theorem dlPath_eq_iff {fs : ArchiveFs} {sub fn : Bytes}
    (hthere : fs.find (join (join base sub) fn) ≠ none) :
    dlPath base fs fn = join (join base sub) fn ↔ Searched base fs sub fn := by
  have hne : ∀ d, fs.find (join (join base d) fn) = none → d ≠ sub := by
    rintro d hd rfl
    exact hthere hd
  have hflat : join base fn ≠ join (join base sub) fn := by
    intro h
    have hlen := congrArg List.length h
    simp only [join, List.length_append, List.length_cons] at hlen
    omega
  unfold dlPath Searched
  dsimp only
  by_cases hprimary : fs.find (join (join base (dbSubdirFor fn)) fn) = none
  · have hsub := hne _ hprimary
    rw [if_neg (by simp [hprimary])]
    simp only [hprimary, hsub, false_or, true_and]
    -- the other directories in turn
    by_cases hiq : fs.find (join (join base (ascii "iq")) fn) = none
    · have hiq' := hne _ hiq
      by_cases haudio : fs.find (join (join base (ascii "audio")) fn) = none
      · have haudio' := hne _ haudio
        by_cases hhist : fs.find (join (join base (ascii "hist")) fn) = none
        · have hhist' := hne _ hhist
          by_cases hroot : fs.find (join base fn) = none
          · simp [hiq, haudio, hhist, hroot, join_join_inj, hsub, hiq'.symm, haudio'.symm,
              hhist'.symm]
          · have hroot' := Option.isSome_iff_ne_none.2 hroot
            simp [hiq, haudio, hhist, hroot', hflat, hiq'.symm, haudio'.symm, hhist'.symm]
        · have hhist' := Option.isSome_iff_ne_none.2 hhist
          simp [hiq, haudio, hhist', join_join_inj, hiq'.symm, haudio'.symm, eq_comm]
      · have haudio' := Option.isSome_iff_ne_none.2 haudio
        simp [hiq, haudio', join_join_inj, hiq'.symm, haudio, eq_comm]
    · have hiq' := Option.isSome_iff_ne_none.2 hiq
      simp [hiq', join_join_inj, hiq, eq_comm]
  · rw [if_pos (Option.isSome_iff_ne_none.2 hprimary), join_join_inj]
    simp [hprimary]

theorem baseOf_dlPath (base : Bytes) (fs : ArchiveFs) {fn : Bytes} (hfn : slash ∉ fn) :
    baseOf (dlPath base fs fn) = fn := by
  have hall : ∀ p ∈ [join (join base (ascii "iq")) fn, join (join base (ascii "audio")) fn,
      join (join base (ascii "hist")) fn, join base fn], baseOf p = fn := by
    simp only [List.mem_cons, List.not_mem_nil, or_false]
    rintro p (rfl | rfl | rfl | rfl) <;> exact baseOf_join hfn
  unfold dlPath
  dsimp only
  split_ifs
  · exact baseOf_join hfn
  · cases hfind : [join (join base (ascii "iq")) fn, join (join base (ascii "audio")) fn,
        join (join base (ascii "hist")) fn, join base fn].find?
          fun p => (fs.find p).isSome with
    | none => exact baseOf_join hfn
    | some p => exact hall p (List.mem_of_find?_eq_some hfind)

/-- What Central answers for a name that it takes and finds. -/
theorem dbDlReq_eq_some {fs : ArchiveFs} {filename : Chars 128} {content : Bytes}
    (hsafe : dbFilenameSafe filename.str = true)
    (hread : fs.read (dlPath base fs filename.str) = some content) :
    ∃ reply, dbDlReq base fs filename = some reply ∧
      reply.data = dlData filename.str content.length true content := by
  unfold dbDlReq
  rw [if_neg (not_not.2 hsafe)]
  dsimp only
  rw [hread]
  exact ⟨_, rfl, rfl⟩

theorem dbFilenameSafe_iff {fn : Bytes} : dbFilenameSafe fn = true ↔
    (((fn ≠ [] ∧ fn.length < 128) ∧ fn ≠ ascii ".") ∧ fn ≠ ascii "..") ∧
      ∀ c ∈ fn, (c ≠ slash ∧ c ≠ 92) ∧ 32 ≤ c := by
  simp [dbFilenameSafe, pathComponentSafe]

/-- The name under which DB_SAVE stores a file is taken again unless it is too long. -/
theorem savePath_name (base : Bytes) (sender : Sender) (fs : ArchiveFs) {filename : Bytes}
    (hsafe : dbFilenameSafe filename = true) :
    ∃ fn, savePath base sender fs filename = join (join base (dbSubdirFor filename)) fn ∧
      (∀ c ∈ fn, (c ≠ slash ∧ c ≠ 92) ∧ 32 ≤ c) ∧
      (fn.length < 128 → dbFilenameSafe fn = true) := by
  obtain ⟨fn, hpath, rfl | ⟨hmark, hbytes⟩⟩ := savePath_eq base sender fs filename
  · exact ⟨fn, hpath, (dbFilenameSafe_iff.1 hsafe).2, fun _ => hsafe⟩
  · have hall : ∀ c ∈ fn, (c ≠ slash ∧ c ≠ 92) ∧ 32 ≤ c := by
      intro c hc
      rcases hbytes c hc with hold | rfl | hdigit
      · exact (dbFilenameSafe_iff.1 hsafe).2 c hold
      · decide
      · -- the digits are from 48 to 57
        simp only [isDigit, Bool.and_eq_true, decide_eq_true_eq] at hdigit
        refine ⟨⟨?_, ?_⟩, UInt8.le_trans (by decide) hdigit.1⟩
        · rintro rfl
          exact absurd hdigit.1 (by decide)
        · rintro rfl
          exact absurd hdigit.2 (by decide)
    refine ⟨fn, hpath, hall, fun hlen => dbFilenameSafe_iff.2 ⟨⟨⟨⟨?_, hlen⟩, ?_⟩, ?_⟩, hall⟩⟩
    · exact List.ne_nil_of_mem hmark
    · rintro rfl
      exact absurd hmark (by decide)
    · rintro rfl
      exact absurd hmark (by decide)

end

/-! ## Downloads -/

/-- A file that DB_SAVE has stored is returned exactly if its name has less than 128 bytes, its
directory is come to before another one with the name, and it is not of whole chunks. -/
theorem returned_iff (base : Bytes) (dirs : DlDirs) (sender : Sender) (fs₀ fs : ArchiveFs)
    (filename content : Bytes) (hsafe : dbFilenameSafe filename = true)
    (hstored : fs.read (savePath base sender fs₀ filename) = some content) :
    Returned base dirs fs (baseOf (savePath base sender fs₀ filename))
        (savePath base sender fs₀ filename) content ↔
      (baseOf (savePath base sender fs₀ filename)).length < 128 ∧
        Searched base fs (dbSubdirFor filename) (baseOf (savePath base sender fs₀ filename)) ∧
        ¬(content ≠ [] ∧ CHUNK ∣ content.length) := by
  obtain ⟨fn, hpath, hbytes, htaken⟩ := savePath_name base sender fs₀ hsafe
  have hslash : slash ∉ fn := fun hmem => (hbytes slash hmem).1.1 rfl
  have hnul : (0 : UInt8) ∉ fn := fun hmem => absurd (hbytes 0 hmem).2 (by decide)
  rw [hpath] at hstored ⊢
  rw [baseOf_join hslash]
  have hthere : fs.find (join (join base (dbSubdirFor filename)) fn) ≠ none := by
    rw [Ne, ← Fs.read_eq_none_iff, hstored]
    simp
  have hstr : (dlRequest fn).str = fn.take 127 := by
    have hnul' : (0 : UInt8) ∉ fn.take 127 := fun hmem => hnul (List.mem_of_mem_take hmem)
    rw [dlRequest, Chars.str_ofStr hnul', List.take_take]
    rfl
  constructor
  · rintro ⟨hfound, reply, hreply, hmarked, -, -⟩
    -- another name would have been asked for
    have hname : fn.take 127 = fn := by
      have hslash' : slash ∉ fn.take 127 := fun hmem => hslash (List.mem_of_mem_take hmem)
      rw [hstr] at hfound
      rw [← baseOf_dlPath base fs hslash', hfound, baseOf_join hslash]
    have hlen : fn.length < 128 := by
      have := congrArg List.length hname
      rw [List.length_take] at this
      omega
    rw [hname] at hstr
    rw [hstr] at hfound
    have hread : fs.read (dlPath base fs (dlRequest fn).str) = some content := by
      rw [hstr, hfound, hstored]
    have htaken' : dbFilenameSafe (dlRequest fn).str = true := by
      rw [hstr]
      exact htaken hlen
    obtain ⟨reply', hreply', hdata⟩ := dbDlReq_eq_some htaken' hread
    obtain rfl : reply = reply' := Option.some.inj (hreply.symm.trans hreply')
    rw [hdata, marked_dlData_iff] at hmarked
    exact ⟨hlen, (dlPath_eq_iff hthere).1 hfound, hmarked⟩
  · rintro ⟨hlen, hsearched, hnot⟩
    have hname : fn.take 127 = fn := List.take_of_length_le (by omega)
    have hfound := (dlPath_eq_iff hthere).2 hsearched
    rw [hname] at hstr
    have hread : fs.read (dlPath base fs (dlRequest fn).str) = some content := by
      rw [hstr, hfound, hstored]
    have htaken' : dbFilenameSafe (dlRequest fn).str = true := by
      rw [hstr]
      exact htaken hlen
    obtain ⟨reply, hreply, hdata⟩ := dbDlReq_eq_some htaken' hread
    refine ⟨by rw [hstr, hfound], reply, hreply, ?_, ?_, fun s => ?_⟩
    · rw [hdata, marked_dlData_iff]
      exact hnot
    · rw [hdata, flatten_dlData]
    · have hreceived := receive_dlData fn content.length dirs hstr content s
      rw [hdata, hstr]
      exact ⟨hreceived.2.2 hnot, hreceived.1⟩

/-- Where a JOIN's first file of a name is stored. -/
def firstPath : Bytes := savePath database (.join 1) (Fs.empty []) (ascii "x.wav")

/-- A database with that file. -/
def oneFile (content : Bytes) : ArchiveFs := ((Fs.empty []).create firstPath content).1

/-- Directories of HOST. -/
def hostDirs : DlDirs where
  record_iq := ascii "recordings/record/iq"
  record_audio := ascii "recordings/record/audio"
  tle := ascii "assets/tle"
  frame := ascii "assets/satframe"

/-- A byte comes back. -/
theorem returned_oneByte :
    Returned database hostDirs (oneFile [1]) (baseOf firstPath) firstPath [1] := by
  refine (returned_iff database hostDirs (.join 1) (Fs.empty []) (oneFile [1]) (ascii "x.wav") [1]
    (by decide) (by decide)).2 ⟨by decide, Or.inl (by decide), by decide⟩

/-- A chunk does not. -/
theorem not_returned_oneChunk :
    ¬Returned database hostDirs (oneFile (List.replicate CHUNK 0)) (baseOf firstPath) firstPath
      (List.replicate CHUNK 0) := by
  rintro ⟨hfound, reply, hreply, hmarked, -, -⟩
  have hread : (oneFile (List.replicate CHUNK 0)).read (dlPath database
      (oneFile (List.replicate CHUNK 0)) (dlRequest (baseOf firstPath)).str) =
        some (List.replicate CHUNK 0) := by
    rw [hfound, oneFile, Fs.read_create, if_pos rfl]
  have hsafe : dbFilenameSafe (dlRequest (baseOf firstPath)).str = true := by decide
  obtain ⟨reply', hreply', hdata⟩ := dbDlReq_eq_some hsafe hread
  obtain rfl : reply = reply' := Option.some.inj (hreply.symm.trans hreply')
  rw [hdata, marked_dlData_iff] at hmarked
  refine hmarked ⟨?_, ?_⟩
  · intro h
    have hlen := congrArg List.length h
    rw [List.length_replicate] at hlen
    exact absurd hlen (by decide)
  · rw [List.length_replicate]

end Bewe.Database
