import Bewe.Paths.Access

/-!
# Names that stay in their directory

Names from packets are checked to be single components in the archive and in the database, and the
names that Central makes of them (sidecars, free names, the names of finished and of joined
recordings) are single components too. So every path of these two subsystems lies in its directory;
`KeepsPaths` is what the open transfers of a room keep for it from one packet to the next.
-/

namespace Bewe.Paths

open Lib Hist Archive Database PathStep
open MissionPush (Sender)

/-! ## Components -/

/-- A name under a directory is a component more, and a path under it more of them. -/
theorem components_join (a b : Bytes) : components (join a b) = components a ++ components b := by
  rw [components, join, List.splitOn_append_cons_self, List.map_append]
  rfl

theorem components_of_safe {n : Bytes} (h : SafeName n) : components n = [.name n] := by
  rw [components, List.splitOn_eq_singleton h.no_slash, List.map_singleton,
    if_neg (not_or.2 ⟨h.ne_nil, h.ne_dot⟩), if_neg h.ne_dotdot]

theorem resolve_join (a b : Bytes) : resolve (join a b) = walk (resolve a) (components b) := by
  rw [resolve, components_join, walk_append]
  rfl

theorem join_assoc (a b c : Bytes) : join (join a b) c = join a (join b c) := by
  simp [join]

/-- A path lies in a directory. -/
def Inside (base p : Bytes) : Prop := resolve base <+: resolve p

theorem Inside.contained {base p : Bytes} (h : Inside base p) : Contained base p := Or.inr h

theorem inside_self (base : Bytes) : Inside base base := List.prefix_rfl

/-- What a directory in a directory has a name for lies in it. -/
theorem Inside.join {base dir n : Bytes} (h : Inside base dir) (hn : SafeName n) :
    Inside base (join dir n) := by
  rw [Inside, resolve_join, components_of_safe hn]
  exact h.trans (List.prefix_append _ _)

/-- A path below a directory that never goes above it. -/
theorem inside_of_staysBelow {base m : Bytes} (h : staysBelow 0 (components m) = true) :
    Inside base (Bewe.join base m) := by
  have hwalk : resolve base <+: walk (resolve base ++ []) (components m) := prefix_walk h
  rwa [List.append_nil, ← resolve_join] at hwalk

theorem staysBelow_of_safe {n : Bytes} (h : SafeName n) : staysBelow 0 (components n) = true := by
  rw [components_of_safe h]
  rfl

theorem staysBelow_join {a b : Bytes} (ha : staysBelow 0 (components a) = true)
    (hb : staysBelow 0 (components b) = true) : staysBelow 0 (components (join a b)) = true := by
  rw [components_join]
  exact staysBelow_append ha hb

/-- The directories that `mkdir_p` makes for a path that never goes above a directory. -/
theorem contained_mkdirP {base m : Bytes} (h : staysBelow 0 (components m) = true) :
    ∀ q ∈ mkdirP (join base m), Contained base q := by
  intro q hq
  rcases List.mem_append.1 hq with hq | hq
  · obtain ⟨hmem, hslash⟩ := List.mem_filter.1 hq
    have hlast : q.getLast? = some slash := (of_decide_eq_true hslash).1
    have hpre : q <+: (base ++ [slash]) ++ m := by
      rw [List.append_assoc]
      exact (List.mem_inits _ _).1 hmem
    rcases List.prefix_or_prefix_of_prefix hpre (List.prefix_append _ m) with hway | ⟨t, rfl⟩
    · exact Or.inl ⟨hway, hlast⟩
    · rcases List.eq_nil_or_concat t with rfl | ⟨t, c, rfl⟩
      · exact Or.inl ⟨by rw [List.append_nil], hlast⟩
      · -- the directory ends at a slash of `m`
        rw [List.concat_eq_append, ← List.append_assoc, List.getLast?_concat,
          Option.some.injEq] at hlast
        subst hlast
        obtain ⟨rest, hrest⟩ := (List.prefix_append_right_inj _).1 hpre
        have hm : m = join t rest := by rw [← hrest]; simp [join]
        rw [hm, components_join] at h
        have hq : base ++ [slash] ++ t.concat slash = join base (join t []) := by simp [join]
        rw [hq]
        exact (inside_of_staysBelow (staysBelow_join (staysBelow_of_append h) rfl)).contained
  · rw [List.mem_singleton.1 hq]
    exact (inside_of_staysBelow h).contained

/-! ## Safe names -/

/-- A name with another byte than dots is no dots. -/
theorem SafeName.of_mem {n : Bytes} {c : UInt8} (hc : c ∈ n) (hdot : c ≠ 46) (h : slash ∉ n) :
    SafeName n where
  no_slash := h
  ne_nil := List.ne_nil_of_mem hc
  ne_dot := by
    rintro rfl
    exact hdot (by simpa [ascii] using hc)
  ne_dotdot := by
    rintro rfl
    exact hdot (by simpa [ascii] using hc)

/-- An entry that does not begin with a dot. -/
theorem SafeName.of_head {n : Bytes} (hne : n ≠ []) (hdot : n.head? ≠ some 46) (h : slash ∉ n) :
    SafeName n where
  no_slash := h
  ne_nil := hne
  ne_dot := by
    rintro rfl
    exact hdot rfl
  ne_dotdot := by
    rintro rfl
    exact hdot rfl

theorem safeName_of_component {n : Bytes} {maxlen : ℕ} (h : pathComponentSafe n maxlen = true) :
    SafeName n := by
  simp only [pathComponentSafe, Bool.and_eq_true, decide_eq_true_eq, List.all_eq_true] at h
  obtain ⟨⟨⟨⟨hnil, -⟩, hdot⟩, hdotdot⟩, hall⟩ := h
  exact ⟨fun hs => (hall _ hs).1.1 rfl, hnil, hdot, hdotdot⟩

theorem not_isDigit_slash : isDigit slash = false := by decide

/-- Digits are no slashes. -/
theorem slash_notMem_padDigits (k n : ℕ) : slash ∉ padDigits k n := by
  intro h
  have hd := isDigit_of_mem_padDigits h
  rw [not_isDigit_slash] at hd
  exact Bool.noConfusion hd

theorem slash_notMem_natText (n : ℕ) : slash ∉ natText n := slash_notMem_padDigits _ n

theorem safeName_padDigits (k n : ℕ) : SafeName (padDigits (k + 1) n) := by
  obtain ⟨c, hc⟩ : ∃ c, c ∈ padDigits (k + 1) n :=
    List.exists_mem_of_length_pos (by rw [padDigits_length]; omega)
  refine .of_mem hc ?_ (slash_notMem_padDigits _ n)
  rintro rfl
  have hd := isDigit_of_mem_padDigits hc
  exact absurd hd (by decide)

/-- The sidecar of a file is a file of its directory. -/
theorem exists_sidecar (dir : Bytes) {n : Bytes} (h : slash ∉ n) :
    ∃ n', SafeName n' ∧ sidecarPath (join dir n) = join dir n' := by
  rw [sidecarPath]
  split_ifs with hext
  · -- the extension is one of the name
    have hsplit : ∃ q, join dir n = q ++ ascii ".sigmf-data" := by
      rw [extensionOf] at hext
      split at hext
      · next dot hdot => exact ⟨_, by rw [← hext, List.take_append_drop]⟩
      · exact absurd hext (by decide)
    obtain ⟨q, hq⟩ := hsplit
    have hstem : ∃ m, n = m ++ ascii ".sigmf-data" ∧ q = join dir m := by
      rw [join] at hq
      rcases List.append_eq_append_iff.1 hq with ⟨t, hqt, ht⟩ | ⟨t, hdir, ht⟩
      · cases t with
        | nil => exact absurd (List.cons.inj ht).1 (by decide)
        | cons c m =>
          rw [List.cons_append, List.cons.injEq] at ht
          exact ⟨m, ht.2, by rw [hqt, ← ht.1, join]⟩
      · -- the directory would end in a part of the extension, and the slash be in it
        have hmem : slash ∈ ascii ".sigmf-data" := by
          rw [ht]
          exact List.mem_append_right _ List.mem_cons_self
        exact absurd hmem (by decide)
    obtain ⟨m, rfl, rfl⟩ := hstem
    refine ⟨m ++ ascii ".sigmf-meta", .of_mem (c := 115) (by simp [ascii]) (by decide) ?_, ?_⟩
    · simp only [List.mem_append, not_or] at h ⊢
      exact ⟨h.1, by decide⟩
    · rw [stripIqExt, if_pos (Or.inl hext), hext, hq, List.length_append, Nat.add_sub_cancel,
        List.take_left]
      simp [join]
  · refine ⟨n ++ ascii ".info", .of_mem (c := 105) (by simp [ascii]) (by decide) ?_, by simp [join]⟩
    simp only [List.mem_append, not_or]
    exact ⟨h, by decide⟩

theorem Inside.sidecar {base dir n : Bytes} (h : Inside base dir) (hn : slash ∉ n) :
    Inside base (sidecarPath (Bewe.join dir n)) := by
  obtain ⟨n', hn', heq⟩ := exists_sidecar dir hn
  rw [heq]
  exact h.join hn'

/-! ## The archive -/

/-- The paths of a directory with safe names. -/
def Entry (dir p : Bytes) : Prop := ∃ n, SafeName n ∧ p = join dir n

theorem Inside.entry {base dir p : Bytes} (h : Inside base dir) (hp : Entry dir p) :
    Contained base p := by
  obtain ⟨n, hn, rfl⟩ := hp
  exact (h.join hn).contained

theorem Entry.sidecar {dir p : Bytes} (h : Entry dir p) : Entry dir (sidecarPath p) := by
  obtain ⟨n, hn, rfl⟩ := h
  exact exists_sidecar dir hn.no_slash

theorem mem_of_mem_lookedAt {more : Bytes → Bool} {p q : Bytes} {qs : List Bytes}
    (h : q ∈ lookedAt more p qs) : q ∈ p :: qs := by
  induction qs generalizing p with
  | nil => exact h
  | cons r qs ih =>
    rw [lookedAt] at h
    rcases List.mem_cons.1 h with rfl | h
    · exact List.mem_cons_self
    · split_ifs at h
      · exact List.mem_cons_of_mem _ (ih h)
      · exact absurd h List.not_mem_nil

/-- A name with a number in it. -/
theorem safeName_numbered {a t : Bytes} (ha : slash ∉ a) (ht : slash ∉ t) (k : ℕ) :
    SafeName (a ++ ascii "_" ++ natText k ++ t) := by
  refine .of_mem (c := 95) (by simp [ascii]) (by decide) ?_
  simp only [List.mem_append, not_or]
  exact ⟨⟨⟨ha, by decide⟩, slash_notMem_natText k⟩, ht⟩

theorem entry_alternatives (dir : Bytes) {name tail p : Bytes} (hname : SafeName name) (ht : slash ∉ tail)
    (h : p ∈ join dir name :: alternatives dir name tail) : Entry dir p := by
  rcases List.mem_cons.1 h with rfl | h
  · exact ⟨name, hname, rfl⟩
  · rw [alternatives] at h
    split at h
    · exact absurd h List.not_mem_nil
    · next pos hpos =>
      obtain ⟨k, -, rfl⟩ := List.mem_map.1 h
      have hpre : slash ∉ name.take pos := fun hs => hname.no_slash (List.mem_of_mem_take hs)
      exact ⟨_, safeName_numbered hpre ht k, rfl⟩

theorem slash_notMem_endTail (utc : ℕ) : slash ∉ endTail utc := by
  simp only [endTail, List.mem_append, not_or]
  exact ⟨⟨⟨by decide, slash_notMem_padDigits 2 _⟩, slash_notMem_padDigits 2 _⟩, by decide⟩

/-- A name with another end. -/
theorem safeName_endTail {a : Bytes} (ha : slash ∉ a) (utc : ℕ) : SafeName (a ++ endTail utc) := by
  refine .of_mem (c := 45) ?_ (by decide) ?_
  · rw [endTail, List.append_assoc, List.append_assoc]
    exact List.mem_append_right _ (List.mem_append_left _ (by decide))
  · simp only [List.mem_append, not_or]
    exact ⟨ha, slash_notMem_endTail utc⟩

theorem safeName_finalize {n : Bytes} (h : SafeName n) (utc : ℕ) :
    SafeName (buildHistFilenameFinalize n utc) := by
  unfold buildHistFilenameFinalize
  cases rfind liveTail n with
  | none => exact h
  | some i => exact safeName_endTail (fun hs => h.no_slash (List.mem_of_mem_take hs)) utc

theorem safeName_of_isFinished {n : Bytes} (hs : slash ∉ n) (h : isFinished n = true) :
    SafeName n := by
  simp only [isFinished, Bool.and_eq_true, decide_eq_true_eq] at h
  obtain ⟨a, rfl⟩ := isBewehist_iff.1 h.1.2
  exact .of_mem (c := 98) (by simp [ascii]) (by decide) hs

/-- The directory of a subdirectory's files is below the root, through safe names only. -/
theorem exists_archiveDir {root station code dir : Bytes} {year subdir : ℕ}
    (h : archiveDir root station year code subdir = some dir) :
    ∃ m, dir = join root m ∧ staysBelow 0 (components m) = true := by
  rw [archiveDir] at h
  split at h
  · cases h
  · next sub hsub =>
    split_ifs at h with hsafe
    simp only [Bool.and_eq_true] at hsafe
    obtain ⟨⟨⟨hstation, hcode⟩, -⟩, -⟩ := hsafe
    have hname : SafeName sub := by
      rw [subdirName] at hsub
      split_ifs at hsub <;> obtain rfl := Option.some.inj hsub
      · exact .of_mem (c := 105) (by decide) (by decide) (by decide)
      · exact .of_mem (c := 97) (by decide) (by decide) (by decide)
      · exact .of_mem (c := 104) (by decide) (by decide) (by decide)
    refine ⟨join (join (join station (padDigits 4 year)) code) sub, ?_, ?_⟩
    · rw [← Option.some.inj h, join_assoc, join_assoc, join_assoc, join_assoc, join_assoc]
    · exact staysBelow_join (staysBelow_join (staysBelow_join
        (staysBelow_of_safe (safeName_of_component hstation))
        (staysBelow_of_safe (safeName_padDigits 3 year)))
        (staysBelow_of_safe (safeName_of_component hcode))) (staysBelow_of_safe hname)

theorem inside_archiveDir {root station code dir : Bytes} {year subdir : ℕ}
    (h : archiveDir root station year code subdir = some dir) : Inside root dir := by
  obtain ⟨m, rfl, hm⟩ := exists_archiveDir h
  exact inside_of_staysBelow hm

/-- A packet with a key makes paths of the key's directory and its name only. -/
theorem contained_keyPaths {root : Bytes} {key : MissionFileKey} {paths : Bytes → List Bytes}
    (h : ∀ dir, key.dir root = some dir → SafeName key.filenameStr →
      ∀ p ∈ paths dir, Contained root p) : ∀ p ∈ keyPaths root key paths, Contained root p := by
  intro p hp
  rw [keyPaths] at hp
  split_ifs at hp with hvalid
  · split at hp
    · exact absurd hp List.not_mem_nil
    · next dir hdir =>
      rw [MissionFileKey.valid] at hvalid
      simp only [Bool.and_eq_true] at hvalid
      exact h dir hdir (safeName_of_component hvalid.1.2) p hp
  · exact absurd hp List.not_mem_nil

theorem contained_pushMeta (root : Bytes) (m : PktMissionFilePushMeta) (f : PushFaults) :
    ∀ p ∈ pushMetaPaths root m f, Contained root p := by
  refine contained_keyPaths fun dir hdir hname p hp => ?_
  have hin := inside_archiveDir hdir
  rcases List.mem_append.1 hp with hp | hp
  · obtain ⟨path, rfl, hpath⟩ := exists_archiveDir hdir
    exact contained_mkdirP hpath p hp
  · rcases List.mem_cons.1 hp with rfl | hp
    · exact (hin.join hname).contained
    · split_ifs at hp
      · rw [List.mem_singleton.1 hp]
        exact (hin.sidecar hname.no_slash).contained
      · exact absurd hp List.not_mem_nil

theorem contained_filePaths (root : Bytes) (key : MissionFileKey) :
    ∀ p ∈ filePaths root key, Contained root p := by
  refine contained_keyPaths fun dir hdir hname p hp => ?_
  have hin := inside_archiveDir hdir
  simp only [List.mem_cons, List.not_mem_nil, or_false] at hp
  rcases hp with rfl | rfl
  · exact (hin.join hname).contained
  · exact (hin.sidecar hname.no_slash).contained

theorem contained_renamePaths (root : Bytes) (key : MissionFileKey) (new_filename : Bytes) :
    ∀ p ∈ renamePaths root key new_filename, Contained root p := by
  intro p hp
  rw [renamePaths] at hp
  dsimp only at hp
  split_ifs at hp with hnew
  · replace hnew := safeName_of_component hnew
    revert p
    refine contained_keyPaths fun dir hdir hname p hp => ?_
    have hin := inside_archiveDir hdir
    simp only [List.mem_cons, List.not_mem_nil, or_false] at hp
    rcases hp with rfl | rfl | rfl | rfl
    · exact (hin.join hname).contained
    · exact (hin.join hnew).contained
    · exact (hin.sidecar hname.no_slash).contained
    · exact (hin.sidecar hnew.no_slash).contained
  · exact absurd hp List.not_mem_nil

/-- A merge touches files of the segment's directory. -/
theorem contained_mergePaths {root dir n : Bytes} (hdir : Inside root dir) (hn : SafeName n)
    (f : MergeFaults) (fs : ArchiveFs) :
    ∀ p ∈ mergePaths f fs (join dir n), Contained root p := by
  intro p hp
  have hdirOf : dirOf (join dir n) = some dir := by
    rw [dirOf, rfind_slash_join hn.no_slash]
    simp [join]
  rw [mergePaths, hdirOf] at hp
  rcases List.mem_cons.1 hp with rfl | hp
  · exact (hdir.join hn).contained
  rcases List.mem_cons.1 hp with rfl | hp
  · exact hdir.contained
  rcases List.mem_append.1 hp with hp | hp
  · obtain ⟨e, he, rfl⟩ := List.mem_map.1 hp
    obtain ⟨hentry, hfin⟩ := List.mem_filter.1 he
    obtain ⟨path, -, hpath⟩ := List.mem_filterMap.1 hentry
    exact (hdir.join (safeName_of_isFinished (entryIn_eq_some.1 hpath).2 hfin)).contained
  · split at hp
    · exact absurd hp List.not_mem_nil
    · next m hm =>
      obtain ⟨pb, sb, hfound⟩ := findMerge_found hm
      have hmdir : m.dir = dir := by
        have := hfound.dirOf
        rw [hdirOf] at this
        exact (Option.some.inj this).symm
      obtain ⟨e, hbest, hslash, hfin⟩ := hfound.best_entry
      have he : SafeName e := safeName_of_isFinished hslash hfin
      have hmerged : SafeName m.mergedName := by
        rw [Merge.mergedName, hbest, baseOf_join hslash]
        split
        · split_ifs
          · exact safeName_endTail (fun hs => hslash (List.mem_of_mem_take hs)) _
          · exact he
        · exact he
      simp only [List.mem_cons, List.not_mem_nil, or_false] at hp
      rcases hp with rfl | rfl | rfl
      · rw [Merge.tmp, hmdir]
        exact (hdir.join (.of_mem (c := 109) (by decide) (by decide) (by decide))).contained
      · rw [hbest, hmdir]
        exact (hdir.join he).contained
      · rw [Merge.merged, hmdir]
        exact (hdir.join hmerged).contained

/-- The paths of the open transfers of a room are entries of directories of the archive. -/
def KeepsPaths (root : Bytes) (room : Room) : Prop :=
  ∀ id xf, room.mission_xfers.lookup id = some xf →
    ∃ dir, Inside root dir ∧ Entry dir xf.archive_path

theorem contained_pushData {root : Bytes} {room : Room} (h : KeepsPaths root room)
    (d : PktMissionFilePushData) (f : PushFaults) (mf : MergeFaults) (fs : ArchiveFs) :
    ∀ p ∈ pushDataPaths room d f mf fs, Contained root p := by
  intro p hp
  rw [pushDataPaths] at hp
  split at hp
  · exact absurd hp List.not_mem_nil
  · next xf hxf =>
    obtain ⟨dir, hdir, n, hn, hpath⟩ := h _ xf hxf
    rw [hpath] at hp
    by_cases hfail : f.seek ∨ d.chunk ≠ [] ∧ f.write ∨ ¬d.is_last
    · rw [if_pos hfail] at hp
      exact absurd hp List.not_mem_nil
    · rw [if_neg hfail] at hp
      rcases List.mem_cons.1 hp with rfl | hp
      · exact (hdir.join hn).contained
      · by_cases hhist : xf.key.subdir = MFS_HIST
        · rw [if_pos hhist] at hp
          exact contained_mergePaths hdir hn _ _ p hp
        · rw [if_neg hhist] at hp
          exact absurd hp List.not_mem_nil

theorem keepsPaths_erase {root : Bytes} {room : Room} (h : KeepsPaths root room) (id : ℕ) :
    KeepsPaths root { room with mission_xfers := room.mission_xfers.erase id } := by
  intro k xf hk
  by_cases hid : k = id
  · subst hid
    rw [AList.lookup_erase] at hk
    cases hk
  · rw [AList.lookup_erase_ne hid] at hk
    exact h k xf hk

theorem keepsPaths_insert {root dir : Bytes} {room : Room} {xf : MissionFileTransfer}
    (h : KeepsPaths root room) (id : ℕ) (hdir : Inside root dir) (hxf : Entry dir xf.archive_path) :
    KeepsPaths root { room with mission_xfers := room.mission_xfers.insert id xf } := by
  intro k yf hk
  by_cases hid : k = id
  · subst hid
    rw [AList.lookup_insert] at hk
    cases hk
    exact ⟨dir, hdir, hxf⟩
  · rw [AList.lookup_insert_ne hid] at hk
    exact h k yf hk

/-- A changed room keeps its paths with the others. -/
theorem keepsPaths_setRoom {root : Bytes} {s : State} (h : ∀ r, KeepsPaths root (s.rooms r))
    {r : ℕ} {room : Room} (hroom : KeepsPaths root room) :
    ∀ k, KeepsPaths root ((s.setRoom r room).rooms k) := by
  intro k
  change KeepsPaths root (Function.update s.rooms r room k)
  by_cases hk : k = r
  · subst hk
    rwa [Function.update_self]
  · rw [Function.update_of_ne hk]
    exact h k

theorem openUpload_rooms (s : State) (append : Bool) (p : Bytes) (now : ℕ) :
    (s.openUpload append p now).1.rooms = s.rooms := by
  unfold State.openUpload State.openAppend
  split_ifs
  · split
    · rfl
    · rfl
  · rfl

/-- A transfer begins with a path of the archive. -/
theorem keepsPaths_pushMeta {root : Bytes} {s : State} (h : ∀ r, KeepsPaths root (s.rooms r))
    (r : ℕ) (m : PktMissionFilePushMeta) (f : PushFaults) (now : ℕ) :
    ∀ k, KeepsPaths root ((pushMeta root r m f now s).1.rooms k) := by
  simp only [pushMeta]
  by_cases hvalid : m.key.valid = true
  · rw [if_neg (not_not.2 hvalid)]
    split
    · exact h
    · next dir hdir =>
      have herase := keepsPaths_erase (h r) m.transfer_id
      split
      · exact keepsPaths_setRoom h herase
      · have hopen : ∀ k, KeepsPaths root ((s.openUpload (decide (m.mode = 1))
            (join dir m.key.filenameStr) now).1.rooms k) := by
          rw [openUpload_rooms]
          exact h
        rw [MissionFileKey.valid] at hvalid
        simp only [Bool.and_eq_true] at hvalid
        have hset := fun (xf : MissionFileTransfer) (hxf : Entry dir xf.archive_path) =>
          keepsPaths_setRoom (r := r) hopen
            (keepsPaths_insert herase m.transfer_id (inside_archiveDir hdir) hxf)
        have hentry : Entry dir (join dir m.key.filenameStr) :=
          ⟨_, safeName_of_component hvalid.1.2, rfl⟩
        split_ifs
        · exact hset _ hentry
        · exact hset _ hentry
  · rw [if_pos hvalid]
    exact h

/-- A transfer keeps its path as long as it is open. -/
theorem keepsPaths_pushData {root : Bytes} {s : State} (h : ∀ r, KeepsPaths root (s.rooms r))
    (z : Zstd) (r : ℕ) (d : PktMissionFilePushData) (f : PushFaults) (mf : MergeFaults) (now : ℕ) :
    ∀ k, KeepsPaths root ((pushData z r d f mf now s).1.rooms k) := by
  simp only [pushData]
  split
  · exact h
  · next xf hxf =>
    have herase := keepsPaths_erase (h r) d.transfer_id
    -- writing the chunk changes no room
    generalize pwrite _ d.chunk (s.fs.content xf.fp) = b
    have hwrite : ∀ k, KeepsPaths root ((s.write xf.fp b now).rooms k) := h
    split_ifs
    · exact keepsPaths_setRoom h herase
    · exact keepsPaths_setRoom h herase
    · exact keepsPaths_setRoom hwrite herase
    · exact keepsPaths_setRoom hwrite herase
    · obtain ⟨dir, hdir, hentry⟩ := h r d.transfer_id xf hxf
      exact keepsPaths_setRoom hwrite (keepsPaths_insert (h r) _ hdir hentry)

/-! ## Listing the archive -/

theorem safeName_of_mem_enumDir {files : Files} {path n : Bytes} (h : n ∈ enumDir files path) :
    SafeName n := by
  obtain ⟨hmem, hn⟩ := List.mem_filter.1 h
  rw [Bool.and_eq_true, decide_eq_true_eq] at hn
  exact .of_head (files.ne_nil path n hmem) hn.1 (files.no_slash path n hmem)

theorem contained_listEntry {root dir n : Bytes} {files : Files} (hdir : Inside root dir)
    (hn : n ∈ files.entries dir) (now : ℕ) :
    ∀ p ∈ listEntryPaths files dir now n, Contained root p := by
  intro p hp
  simp only [listEntryPaths] at hp
  split_ifs at hp with hskip
  · exact absurd hp List.not_mem_nil
  · have hsafe : SafeName n := .of_head (files.ne_nil dir n hn) (fun h => hskip (Or.inl h))
      (files.no_slash dir n hn)
    rcases List.mem_cons.1 hp with rfl | hp
    · exact (hdir.join hsafe).contained
    · split at hp
      · exact absurd hp List.not_mem_nil
      · next i hi =>
        have hfin : SafeName (buildHistFilenameFinalize n (files.mtime i)) :=
          safeName_finalize hsafe _
        have halt : ∀ q, q ∈ _ :: alternatives dir _ (ascii ".bewehist") → Entry dir q :=
          fun q hq => entry_alternatives _ hfin (show slash ∉ ascii ".bewehist" by decide) hq
        rcases List.mem_append.1 hp with hp | hp
        · -- a live recording that is given up
          split_ifs at hp
          · have hfree := halt _ (firstFree_mem (fun p => (files.fs.find p).isSome) _ _)
            rcases List.mem_append.1 hp with hp | hp
            · exact hdir.entry (halt p (mem_of_mem_lookedAt hp))
            · simp only [List.mem_cons, List.not_mem_nil, or_false] at hp
              rcases hp with rfl | rfl
              · exact hdir.entry hfree
              · exact hdir.entry hfree.sidecar
          · exact absurd hp List.not_mem_nil
        · rw [List.mem_singleton.1 hp]
          exact (hdir.sidecar hsafe.no_slash).contained

theorem contained_addIf (root : Bytes) (files : Files) (now : ℕ) (station : Bytes) (year : ℕ)
    (code : Bytes) (subdir : ℕ) :
    ∀ p ∈ addIfPaths root files now station year code subdir, Contained root p := by
  intro p hp
  rw [addIfPaths] at hp
  split at hp
  · exact absurd hp List.not_mem_nil
  · next dir hdir =>
    have hin := inside_archiveDir hdir
    rcases List.mem_cons.1 hp with rfl | hp
    · exact hin.contained
    · obtain ⟨n, hn, hp⟩ := List.mem_flatMap.1 hp
      exact contained_listEntry hin hn now p hp

/-- Names that are walked are those of the packet, if they are safe, or those that are found. -/
theorem safeName_of_mem_walk {files : Files} {s path n : Bytes} {maxlen : ℕ}
    (h : n ∈ if pathComponentSafe s maxlen then [s] else enumDir files path) : SafeName n := by
  split_ifs at h with hs
  · rw [List.mem_singleton.1 h]
    exact safeName_of_component hs
  · exact safeName_of_mem_enumDir h

theorem contained_listReq (root : Bytes) (files : Files) (now : ℕ) (station : Bytes) (year : ℕ)
    (code : Bytes) (subdir : ℕ) :
    ∀ p ∈ listReqPaths root files now station year code subdir, Contained root p := by
  intro p hp
  -- what is listed on the way is nothing or one directory
  have hlisted : ∀ (c : Prop) [Decidable c] (dir : Bytes), Inside root dir →
      p ∈ (if c then [] else [dir]) → Contained root p := by
    intro c _ dir hdir hmem
    split_ifs at hmem
    · exact absurd hmem List.not_mem_nil
    · rw [List.mem_singleton.1 hmem]
      exact hdir.contained
  simp only [listReqPaths] at hp
  rcases List.mem_append.1 hp with hp | hp
  · exact hlisted _ _ (inside_self root) hp
  obtain ⟨st, hst, hp⟩ := List.mem_flatMap.1 hp
  have hstation : Inside root (join root st) := (inside_self root).join (safeName_of_mem_walk hst)
  rcases List.mem_append.1 hp with hp | hp
  · exact hlisted _ _ hstation hp
  obtain ⟨y, hy, hp⟩ := List.mem_flatMap.1 hp
  have hyear : SafeName y.1 := by
    split_ifs at hy
    · rw [List.mem_singleton.1 hy]
      exact safeName_padDigits 3 year
    · obtain ⟨ys, hys, rfl⟩ := List.mem_map.1 hy
      exact safeName_of_mem_enumDir hys
  by_cases hrange : y.2 < 1970 ∨ 3000 < y.2
  · rw [if_pos hrange] at hp
    exact absurd hp List.not_mem_nil
  rw [if_neg hrange] at hp
  rcases List.mem_append.1 hp with hp | hp
  · exact hlisted _ _ (hstation.join hyear) hp
  obtain ⟨cs, -, hp⟩ := List.mem_flatMap.1 hp
  by_cases hsub : subdir ≠ 0
  · rw [if_pos hsub] at hp
    exact contained_addIf root files now st y.2 cs subdir p hp
  · rw [if_neg hsub, List.mem_append, List.mem_append] at hp
    rcases hp with (hp | hp) | hp
    · exact contained_addIf root files now st y.2 cs _ p hp
    · exact contained_addIf root files now st y.2 cs _ p hp
    · exact contained_addIf root files now st y.2 cs _ p hp

/-! ## The database -/

theorem safeName_dbSubdirFor (fn : Bytes) : SafeName (dbSubdirFor fn) := by
  rw [dbSubdirFor]
  split_ifs
  · exact .of_mem (c := 105) (by decide) (by decide) (by decide)
  · exact .of_mem (c := 104) (by decide) (by decide) (by decide)
  · exact .of_mem (c := 97) (by decide) (by decide) (by decide)
  · exact .of_mem (c := 116) (by decide) (by decide) (by decide)
  · exact .of_mem (c := 115) (by decide) (by decide) (by decide)
  · exact .of_mem (c := 105) (by decide) (by decide) (by decide)

/-- The directories of the database. -/
theorem safeName_dbDirs {n : Bytes}
    (h : n ∈ [ascii "iq", ascii "audio", ascii "hist", ascii "satframe"]) : SafeName n := by
  simp only [List.mem_cons, List.not_mem_nil, or_false] at h
  rcases h with rfl | rfl | rfl | rfl
  · exact .of_mem (c := 105) (by decide) (by decide) (by decide)
  · exact .of_mem (c := 97) (by decide) (by decide) (by decide)
  · exact .of_mem (c := 104) (by decide) (by decide) (by decide)
  · exact .of_mem (c := 115) (by decide) (by decide) (by decide)

theorem entry_dbAlternatives {dir fn p : Bytes} (hfn : SafeName fn)
    (h : p ∈ join dir fn :: dbAlternatives dir fn) : Entry dir p := by
  rcases List.mem_cons.1 h with rfl | h
  · exact ⟨fn, hfn, rfl⟩
  · obtain ⟨k, -, rfl⟩ := List.mem_map.1 h
    have hstem : slash ∉ fn.take (fn.length - (extensionOf fn).length) :=
      fun hs => hfn.no_slash (List.mem_of_mem_take hs)
    have hext : slash ∉ extensionOf fn := by
      intro hs
      rw [extensionOf] at hs
      split at hs
      · exact hfn.no_slash (List.mem_of_mem_drop hs)
      · exact absurd hs List.not_mem_nil
    exact ⟨_, safeName_numbered hstem hext k, rfl⟩

theorem contained_dbEnsureDirs (base : Bytes) : ∀ p ∈ dbEnsureDirs base, Contained base p := by
  intro p hp
  rcases List.mem_cons.1 hp with rfl | hp
  · exact (inside_self p).contained
  · obtain ⟨n, hn, rfl⟩ : ∃ n ∈ [ascii "iq", ascii "audio", ascii "hist", ascii "satframe"],
        join base n = p := List.mem_map.1 hp
    exact ((inside_self base).join (safeName_dbDirs hn)).contained

theorem contained_dbSaveMeta (base : Bytes) (sender : Sender) (filename info : Bytes)
    (fs : ArchiveFs) : ∀ p ∈ dbSaveMetaPaths base sender filename info fs, Contained base p := by
  intro p hp
  simp only [dbSaveMetaPaths] at hp
  by_cases hsafe : dbFilenameSafe (cStr (filename.take 128)) = true
  · rw [if_neg (not_not.2 hsafe)] at hp
    generalize cStr (filename.take 128) = fn at hsafe hp
    have hfn : SafeName fn := safeName_of_component hsafe
    have hdir : Inside base (join base (dbSubdirFor fn)) :=
      (inside_self base).join (safeName_dbSubdirFor fn)
    have hdst : Entry (join base (dbSubdirFor fn)) (savePath base sender fs fn) := by
      simp only [savePath]
      split_ifs
      · exact ⟨fn, hfn, rfl⟩
      · exact entry_dbAlternatives hfn (firstFree_mem _ _ _)
    simp only [List.mem_append] at hp
    rcases hp with ((hp | hp) | hp) | hp
    · exact contained_dbEnsureDirs base p hp
    · split_ifs at hp
      · exact absurd hp List.not_mem_nil
      · exact hdir.entry (entry_dbAlternatives hfn (mem_of_mem_lookedAt hp))
    · split_ifs at hp
      · rw [List.mem_singleton.1 hp]
        exact hdir.entry hdst.sidecar
      · exact absurd hp List.not_mem_nil
    · rw [List.mem_singleton.1 hp]
      exact hdir.entry hdst
  · rw [if_pos hsafe] at hp
    exact absurd hp List.not_mem_nil

/-- The places where a file is looked for are names in directories of the database. -/
theorem exists_entry_dbPlaces {base fn p : Bytes} (hfn : SafeName fn)
    (h : p ∈ dbPrimary base fn :: dbPlaces base fn) : ∃ dir, Inside base dir ∧ Entry dir p := by
  have hsub : ∀ {n : Bytes}, n ∈ [ascii "iq", ascii "audio", ascii "hist", ascii "satframe"] →
      Inside base (join base n) := fun hn => (inside_self base).join (safeName_dbDirs hn)
  simp only [dbPrimary, dbPlaces, List.mem_cons, List.not_mem_nil, or_false] at h
  rcases h with rfl | rfl | rfl | rfl | rfl
  · exact ⟨_, (inside_self base).join (safeName_dbSubdirFor fn), fn, hfn, rfl⟩
  · exact ⟨_, hsub (by simp), fn, hfn, rfl⟩
  · exact ⟨_, hsub (by simp), fn, hfn, rfl⟩
  · exact ⟨_, hsub (by simp), fn, hfn, rfl⟩
  · exact ⟨base, inside_self base, fn, hfn, rfl⟩

/-- A file is looked for, and found or missed, in the directories of the database. -/
theorem contained_dbFilePaths (base filename : Bytes) (fs : ArchiveFs) {missing : Bytes → Bytes}
    (h : ∀ fn, missing fn ∈ dbPrimary base fn :: dbPlaces base fn) :
    ∀ p ∈ dbFilePaths base filename fs missing, Contained base p := by
  intro p hp
  simp only [dbFilePaths] at hp
  by_cases hsafe : dbFilenameSafe (cStr (filename.take 128)) = true
  · rw [if_neg (not_not.2 hsafe)] at hp
    generalize cStr (filename.take 128) = fn at hsafe hp
    have hfn : SafeName fn := safeName_of_component hsafe
    set fpath := ((dbPrimary base fn :: dbPlaces base fn).find? fun p =>
      (fs.find p).isSome).getD (missing fn) with hfpath
    have hmem : fpath ∈ dbPrimary base fn :: dbPlaces base fn := by
      cases hfind : (dbPrimary base fn :: dbPlaces base fn).find? fun p => (fs.find p).isSome with
      | none =>
        rw [hfpath, hfind]
        exact h fn
      | some q =>
        rw [hfpath, hfind]
        exact List.mem_of_find?_eq_some hfind
    obtain ⟨dir, hdir, hentry⟩ := exists_entry_dbPlaces hfn hmem
    simp only [List.mem_append, List.mem_cons, List.not_mem_nil, or_false] at hp
    rcases hp with hp | rfl | rfl
    · obtain ⟨d, hd, hp⟩ := exists_entry_dbPlaces hfn (mem_of_mem_lookedAt hp)
      exact hd.entry hp
    · exact hdir.entry hentry
    · exact hdir.entry hentry.sidecar
  · rw [if_pos hsafe] at hp
    exact absurd hp List.not_mem_nil

theorem contained_dbListPaths (base : Bytes) (files : Files) :
    ∀ p ∈ dbListPaths base files, Contained base p := by
  intro p hp
  obtain ⟨sub, hsub, hp⟩ := List.mem_flatMap.1 hp
  have hmem : sub.1 ∈ [ascii "iq", ascii "audio", ascii "hist", ascii "satframe"] := by
    simp only [List.mem_cons, List.not_mem_nil, or_false] at hsub
    rcases hsub with rfl | rfl | rfl <;> simp
  have hdir : Inside base (join base sub.1) := (inside_self base).join (safeName_dbDirs hmem)
  rcases List.mem_cons.1 hp with rfl | hp
  · exact hdir.contained
  · obtain ⟨n, hn, hp⟩ := List.mem_flatMap.1 hp
    obtain ⟨hentry, hhead⟩ := List.mem_filter.1 hn
    have hsafe : SafeName n := .of_head (files.ne_nil _ n hentry) (of_decide_eq_true hhead).1
      (files.no_slash _ n hentry)
    simp only [List.mem_cons, List.not_mem_nil, or_false] at hp
    rcases hp with rfl | rfl
    · exact (hdir.join hsafe).contained
    · exact (hdir.sidecar hsafe.no_slash).contained

theorem contained_dbDelete (base filename : Bytes) (files : Files) :
    ∀ p ∈ dbDeletePaths base filename files, Contained base p := by
  intro p hp
  rw [dbDeletePaths] at hp
  split_ifs at hp
  · rcases List.mem_append.1 hp with hp | hp
    · exact contained_dbFilePaths base filename files.fs (by simp [dbPlaces]) p hp
    · exact contained_dbListPaths base files p hp
  · exact absurd hp List.not_mem_nil

end Bewe.Paths
