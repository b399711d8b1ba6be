import Bewe.Paths.Contained

/-!
# The ids of modules in paths

The id of a module comes from the packet as it is and becomes a part of paths. `contained_iff` is
for any packet after any others: its paths lie in the directory of its subsystem exactly if it is
grounded, that is, if it makes no path of a module's id, or the id, read as a path, never goes above
the directory of the modules. An id has eight bytes at most, which is too few to leave that
directory and to come back to it by its name (`modules_notMem_components`).
-/

namespace Bewe.Paths

open Lib Hist Archive Database PathStep
open ModulePipe (ArchRx Zlib archBody validDate8 ARCH_MAX)

/-! ## Components of short ids -/

/-- A text is at least as long as what is joined to it. -/
theorem length_le_of_mem_intercalate (sep : Bytes) {x : Bytes} {xs : List Bytes} (h : x ∈ xs) :
    x.length ≤ (List.intercalate sep xs).length := by
  induction xs with
  | nil => exact absurd h List.not_mem_nil
  | cons y ys ih =>
    cases ys with
    | nil => rw [List.mem_singleton.1 h, List.intercalate_singleton]
    | cons z zs =>
      rw [List.intercalate_cons_cons, List.length_append, List.length_append]
      rcases List.mem_cons.1 h with rfl | h
      · omega
      · have := ih h
        omega

/-- Two different texts are joined by a separator at least. -/
theorem length_add_le_of_mem_intercalate (sep : Bytes) {x y : Bytes} {xs : List Bytes} (hx : x ∈ xs)
    (hy : y ∈ xs) (hne : x ≠ y) :
    x.length + y.length + sep.length ≤ (List.intercalate sep xs).length := by
  induction xs with
  | nil => exact absurd hx List.not_mem_nil
  | cons z zs ih =>
    cases zs with
    | nil => exact absurd ((List.mem_singleton.1 hx).trans (List.mem_singleton.1 hy).symm) hne
    | cons w ws =>
      rw [List.intercalate_cons_cons, List.length_append, List.length_append]
      rcases List.mem_cons.1 hx with rfl | htail
      · -- the one is the first text, the other one of the rest
        have hlen := length_le_of_mem_intercalate sep
          ((List.mem_cons.1 hy).resolve_left hne.symm)
        omega
      · rcases List.mem_cons.1 hy with rfl | hy
        · have hlen := length_le_of_mem_intercalate sep htail
          omega
        · have := ih htail hy
          omega

theorem mem_splitOn_of_name {n p : Bytes} (h : name n ∈ components p) : n ∈ p.splitOn slash := by
  obtain ⟨m, hm, heq⟩ := List.mem_map.1 h
  split_ifs at heq
  rwa [← name.inj heq]

theorem mem_splitOn_of_up {p : Bytes} (h : up ∈ components p) : ascii ".." ∈ p.splitOn slash := by
  obtain ⟨m, hm, heq⟩ := List.mem_map.1 h
  split_ifs at heq with hhere hup
  rwa [← hup]

/-- What is left of the id of a module has eight bytes at most. -/
theorem length_modStr (mod_id : Bytes) : (modStr mod_id).length ≤ 8 :=
  (List.takeWhile_sublist _).length_le.trans (List.length_take_le 8 mod_id)

/-- An id that goes above a directory has no room for the name of the directory. -/
theorem modules_notMem_components {mod : Bytes} (hlen : mod.length ≤ 8)
    (h : staysBelow 0 (components mod) = false) : name (ascii "modules") ∉ components mod := by
  intro hname
  have hsplit := length_add_le_of_mem_intercalate [slash] (mem_splitOn_of_name hname)
    (mem_splitOn_of_up (up_mem_of_staysBelow h)) (by decide)
  rw [List.intercalate_splitOn] at hsplit
  have hseven : (ascii "modules").length = 7 := by decide
  have htwo : (ascii "..").length = 2 := by decide
  rw [hseven, htwo, List.length_singleton] at hsplit
  omega

/-- A byte of the name of a file that is put behind a path. -/
theorem staysBelow_append_name {m t : Bytes} (h : staysBelow 0 (components m) = true)
    (hslash : slash ∉ t) {c : UInt8} (hc : c ∈ t) (hdot : c ≠ 46) :
    staysBelow 0 (components (m ++ t)) = true := by
  by_cases hm : slash ∈ m
  · -- the path ends in a name behind its last slash
    obtain ⟨b, a, hrev, hb⟩ := List.eq_append_cons_of_mem (List.mem_reverse.2 hm)
    have hsplit : m = join a.reverse b.reverse := by
      rw [← List.reverse_reverse m, hrev]
      simp [join]
    have hjoin : m ++ t = join a.reverse (b.reverse ++ t) := by rw [hsplit]; simp [join]
    rw [hsplit, components_join] at h
    rw [hjoin]
    refine staysBelow_join (staysBelow_of_append h) (staysBelow_of_safe ?_)
    refine .of_mem (List.mem_append_right _ hc) hdot ?_
    rw [List.mem_append, not_or, List.mem_reverse]
    exact ⟨hb, hslash⟩
  · refine staysBelow_of_safe (.of_mem (List.mem_append_right _ hc) hdot ?_)
    rw [List.mem_append, not_or]
    exact ⟨hm, hslash⟩

/-! ## Paths of modules -/

section

variable (home : Bytes)

/-- A path from the directory of the modules that goes above it, and not back by its name. -/
theorem not_contained {m : Bytes} (h : staysBelow 0 (components m) = false)
    (hm : name (ascii "modules") ∉ components m) :
    ¬Contained (modulesDir home) (join (modulesDir home) m) := by
  rintro (⟨hway, -⟩ | hin)
  · -- on the way there is nothing behind the directory
    have hlen := hway.length_le
    simp only [join, List.length_append, List.length_cons, List.length_nil] at hlen
    have hnil : m = [] := List.length_eq_zero_iff.1 (by omega)
    rw [hnil] at h
    exact absurd h (by decide)
  · have hsafe : SafeName (ascii "modules") :=
      .of_mem (c := 109) (by decide) (by decide) (by decide)
    have hbase : resolve (modulesDir home) =
        resolve (join home (ascii "BEWE")) ++ [ascii "modules"] := by
      rw [modulesDir, resolve_join, components_of_safe hsafe]
      rfl
    have hnot : ¬resolve (join home (ascii "BEWE")) ++ [ascii "modules"] <+:
        walk (resolve (join home (ascii "BEWE")) ++ [ascii "modules"] ++ []) (components m) :=
      not_prefix_walk hm h
    rw [List.append_nil, ← hbase, ← resolve_join] at hnot
    exact hnot hin

/-- A path below what an id leads to goes where the id does. -/
theorem not_contained_below {mod rest : Bytes} (hlen : mod.length ≤ 8)
    (h : staysBelow 0 (components mod) = false)
    (hrest : name (ascii "modules") ∉ components rest) :
    ¬Contained (modulesDir home) (join (modulesDir home) (join mod rest)) := by
  refine not_contained home ?_ ?_
  · rw [components_join]
    exact Bool.eq_false_iff.2 fun hall =>
      Bool.eq_false_iff.1 h (staysBelow_of_append hall)
  · rw [components_join, List.mem_append, not_or]
    exact ⟨modules_notMem_components hlen h, hrest⟩

theorem safeName_archive : SafeName (ascii "archive") :=
  .of_mem (c := 97) (by decide) (by decide) (by decide)

theorem moduleArchive_eq (mod : Bytes) :
    moduleArchive home mod = join (modulesDir home) (join mod (ascii "archive")) :=
  join_assoc _ _ _

/-- The archive of a module lies where its id leads to. -/
theorem staysBelow_archive {mod : Bytes} (h : staysBelow 0 (components mod) = true) :
    staysBelow 0 (components (join mod (ascii "archive"))) = true :=
  staysBelow_join h (staysBelow_of_safe safeName_archive)

theorem inside_moduleArchive {mod : Bytes} (h : staysBelow 0 (components mod) = true) :
    Inside (modulesDir home) (moduleArchive home mod) := by
  rw [moduleArchive_eq]
  exact inside_of_staysBelow (staysBelow_archive h)

theorem not_contained_moduleArchive {mod : Bytes} (hlen : mod.length ≤ 8)
    (h : staysBelow 0 (components mod) = false) :
    ¬Contained (modulesDir home) (moduleArchive home mod) := by
  rw [moduleArchive_eq]
  exact not_contained_below home hlen h (by decide)

/-- The file of a day is where the id leads to, and so are the directories that are made for it. -/
theorem contained_moduleStore {mod : Bytes} (hlen : mod.length ≤ 8) (day : ℕ × ℕ × ℕ) :
    (∀ p ∈ moduleStorePaths home mod day, Contained (modulesDir home) p) ↔
      staysBelow 0 (components mod) = true := by
  constructor
  · intro h
    by_contra hnot
    have hmem : join (modulesDir home) mod ∈ moduleStorePaths home mod day :=
      List.mem_append_left _ (List.mem_append_right _ (List.mem_singleton.2 rfl))
    have hfalse := Bool.eq_false_iff.2 hnot
    exact not_contained home hfalse (modules_notMem_components hlen hfalse) (h _ hmem)
  · intro h p hp
    rcases List.mem_append.1 hp with hp | hp
    · exact contained_mkdirP h p hp
    · rw [List.mem_singleton.1 hp, join_assoc]
      refine (inside_of_staysBelow (staysBelow_join h ?_)).contained
      rw [List.append_assoc, List.append_assoc]
      refine staysBelow_append_name h ?_ (List.mem_append_left _ (show (95 : UInt8) ∈ _ by decide))
        (by decide)
      simp only [List.mem_append, not_or]
      exact ⟨by decide, ⟨⟨slash_notMem_padDigits 4 _, slash_notMem_padDigits 2 _⟩,
        slash_notMem_padDigits 2 _⟩, by decide⟩

/-- A date is a safe name, and not that of the directory of the modules. -/
theorem safeName_of_validDate8 {d : Bytes} (h : validDate8 d = true) : SafeName d := by
  rw [validDate8, Bool.and_eq_true, decide_eq_true_eq, List.all_eq_true] at h
  obtain ⟨c, hc⟩ : ∃ c, c ∈ d := List.exists_mem_of_length_pos (by omega)
  have hdigit : ∀ c ∈ d, 48 ≤ c := fun c hc =>
    of_decide_eq_true (Bool.and_eq_true_iff.1 (h.2 c hc)).1
  refine .of_mem hc ?_ fun hs => ?_
  · rintro rfl
    exact absurd (hdigit _ hc) (by decide)
  · exact absurd (hdigit _ hs) (by decide)

theorem ne_modules_of_validDate8 {d : Bytes} (h : validDate8 d = true) : ascii "modules" ≠ d := by
  rintro rfl
  exact absurd h (by decide)

theorem contained_dayPaths {files : Files} {ddir : Bytes} (h : Inside (modulesDir home) ddir) :
    ∀ p ∈ dayPaths files ddir, Contained (modulesDir home) p := by
  intro p hp
  rcases List.mem_cons.1 hp with rfl | hp
  · exact h.contained
  · obtain ⟨n, hn, rfl⟩ := List.mem_map.1 hp
    obtain ⟨hentry, hext⟩ := List.mem_filter.1 hn
    obtain ⟨a, rfl⟩ := (of_decide_eq_true hext).2
    exact (h.join (.of_mem (c := 106) (List.mem_append_right _ (by decide)) (by decide)
      (files.no_slash _ _ hentry))).contained

/-- The list of the days, and the files of each day. -/
theorem contained_hlistReq (files : Files) {mod : Bytes} (hlen : mod.length ≤ 8) :
    (∀ p ∈ hlistReqPaths home files mod, Contained (modulesDir home) p) ↔
      staysBelow 0 (components mod) = true := by
  constructor
  · intro h
    by_contra hnot
    exact not_contained_moduleArchive home hlen (Bool.eq_false_iff.2 hnot)
      (h _ List.mem_cons_self)
  · intro h p hp
    rcases List.mem_cons.1 hp with rfl | hp
    · exact (inside_moduleArchive home h).contained
    · obtain ⟨d, hd, hp⟩ := List.mem_flatMap.1 hp
      have hdate := safeName_of_validDate8 (List.mem_filter.1 hd).2
      exact contained_dayPaths home ((inside_moduleArchive home h).join hdate) p hp

/-- A day that is fetched, if its date is one. -/
theorem contained_hfetch (files : Files) {mod : Bytes} (hlen : mod.length ≤ 8) (date : Bytes) :
    (∀ p ∈ hfetchPaths home files mod date, Contained (modulesDir home) p) ↔
      (validDate8 (cStr (date.take 8)) = true → staysBelow 0 (components mod) = true) := by
  rw [hfetchPaths]
  generalize cStr (date.take 8) = d
  constructor
  · intro h hd
    rw [if_pos hd] at h
    by_contra hnot
    have hday := h _ List.mem_cons_self
    rw [moduleArchive_eq, join_assoc, join_assoc] at hday
    refine not_contained_below home hlen (Bool.eq_false_iff.2 hnot) ?_ hday
    rw [components_join, components_of_safe safeName_archive,
      components_of_safe (safeName_of_validDate8 hd)]
    intro hmem
    rcases List.mem_cons.1 hmem with heq | hmem
    · exact absurd (name.inj heq) (by decide)
    · exact ne_modules_of_validDate8 hd (name.inj (List.mem_singleton.1 hmem))
  · intro h p hp
    split_ifs at hp with hd
    · have hday := (inside_moduleArchive home (h hd)).join (safeName_of_validDate8 hd)
      exact contained_dayPaths home hday p hp
    · exact absurd hp List.not_mem_nil

/-- The name of a station's file. -/
theorem safeName_station (sid : Bytes) (cap : ℕ) :
    SafeName (archStationDisp sid cap ++ ascii ".jsonl") := by
  refine .of_mem (c := 106) (List.mem_append_right _ (by decide)) (by decide) ?_
  rw [List.mem_append, not_or]
  refine ⟨fun hs => ?_, by decide⟩
  simp only [archStationDisp] at hs
  split_ifs at hs
  · exact absurd hs (by decide)
  · -- a byte that is kept is a letter, a digit or a dash
    obtain ⟨c, -, hc⟩ := List.mem_map.1 hs
    split_ifs at hc with hkept
    · subst hc
      exact absurd hkept (by decide)
    · exact absurd hc (by decide)

/-- An archive that is stored, if what was received is one. -/
theorem contained_archDone (z : Zlib) (station_id : Bytes) {mod : Bytes} (hlen : mod.length ≤ 8)
    {rx : ArchRx} (hdate : validDate8 rx.date = true) :
    (∀ p ∈ archDonePaths home z station_id mod rx, Contained (modulesDir home) p) ↔
      (rx.active ∧ (archBody z rx.raw rx.buf).isSome → staysBelow 0 (components mod) = true) := by
  rw [archDonePaths]
  constructor
  · intro h hstored
    rw [if_pos hstored] at h
    by_contra hnot
    refine not_contained_moduleArchive home hlen (Bool.eq_false_iff.2 hnot) (h _ ?_)
    exact List.mem_append_left _ (List.mem_append_left _ (List.mem_append_right _
      (List.mem_singleton.2 rfl)))
  · intro h p hp
    split_ifs at hp with hstored
    · have hday := (inside_moduleArchive home (h hstored)).join
        (safeName_of_validDate8 hdate)
      rcases List.mem_append.1 hp with hp | hp
      · rcases List.mem_append.1 hp with hp | hp
        · rw [moduleArchive_eq] at hp
          exact contained_mkdirP (staysBelow_archive (h hstored)) p hp
        · rw [List.mem_singleton.1 hp]
          exact hday.contained
      · rw [List.mem_singleton.1 hp]
        exact (hday.join (safeName_station station_id 24)).contained
    · exact absurd hp List.not_mem_nil

end

/-! ## Packets -/

section

variable (zstd : Zstd) (zlib : Zlib) (home : Bytes)

/-- A packet makes no path of a module's id, or the id never goes above the directory of the
modules. -/
def Arrival.Grounded (s : Server) (a : Arrival) : Prop :=
  let grounded mod_id := staysBelow 0 (components (modStr mod_id)) = true
  match a.packet with
  | .modData mod_id => grounded mod_id
  | .vhistReq mod_id => grounded mod_id
  | .hlistReq mod_id => grounded mod_id
  | .hfetch mod_id date => validDate8 (cStr (date.take 8)) = true → grounded mod_id
  | .recv mod_id on => on = true → grounded mod_id
  -- an archive is stored if all of it has come and zlib takes it
  | .archDone mod_id => ∀ rx, s.arch_rx a.room (modStr mod_id) = some rx →
      rx.active ∧ (archBody zlib rx.raw rx.buf).isSome → grounded mod_id
  | _ => True

/-- What the handlers keep for later packets: paths in the archive, and dates. -/
structure Kept (s : Server) : Prop where
  rooms : ∀ r, KeepsPaths (archiveRoot home) (s.rooms r)
  dates : ∀ r mod rx, s.arch_rx r mod = some rx → validDate8 rx.date = true

variable {home}

theorem kept_start (station_id : ℕ → Bytes) : Kept home (Server.start station_id) where
  rooms := by
    intro r id xf h
    exact absurd h (by rw [Server.start]; simp)
  dates := by
    intro r mod rx h
    cases h

theorem Kept.setRx {s : Server} (h : Kept home s) (r : ℕ) (mod : Bytes) {rx : ArchRx}
    (hrx : validDate8 rx.date = true) : Kept home (s.setRx r mod rx) where
  rooms := h.rooms
  dates := by
    intro k m rx' hk
    dsimp only [Server.setRx] at hk
    by_cases hr : k = r
    · subst hr
      rw [Function.update_self] at hk
      by_cases hm : m = mod
      · subst hm
        rw [Function.update_self] at hk
        rwa [← Option.some.inj hk]
      · rw [Function.update_of_ne hm] at hk
        exact h.dates k m rx' hk
    · rw [Function.update_of_ne hr] at hk
      exact h.dates k m rx' hk

/-- A chunk does not change the date of a reception. -/
theorem date_add (rx : ArchRx) (bytes : Bytes) : (rx.add bytes).date = rx.date := by
  rw [ArchRx.add]
  split_ifs <;> rfl

theorem Kept.apply {s : Server} (h : Kept home s) (a : Arrival) :
    Kept home (a.apply zstd home s) := by
  rw [Arrival.apply]
  cases a.packet with
  | pushMeta m f => exact ⟨keepsPaths_pushMeta h.rooms a.room m f a.now, h.dates⟩
  | pushData d f mf => exact ⟨keepsPaths_pushData h.rooms zstd a.room d f mf a.now, h.dates⟩
  | archMeta mod_id date total raw =>
    dsimp only
    split_ifs with hdate
    · exact h.setRx a.room _ hdate
    · exact h
  | archChunk mod_id bytes =>
    dsimp only
    split
    · exact h
    · next rx hrx =>
      exact h.setRx a.room _ (by rw [date_add]; exact h.dates _ _ rx hrx)
  | archDone mod_id =>
    dsimp only
    split
    · exact h
    · next rx hrx =>
      split_ifs
      · exact h.setRx a.room _ (h.dates _ _ rx hrx)
      · exact h
  | _ => exact h

theorem kept_served (station_id : ℕ → Bytes) (as : List Arrival) :
    Kept home (served zstd home station_id as) := by
  rw [served]
  generalize hs : Server.start station_id = s
  have hkept : Kept home s := by
    rw [← hs]
    exact kept_start station_id
  clear hs
  induction as generalizing s with
  | nil => exact hkept
  | cons a as ih => exact ih _ (hkept.apply zstd a)

/-- One packet, with what has been kept. -/
theorem Kept.contained_iff_grounded {s : Server} (h : Kept home s) (a : Arrival) :
    a.Contained zlib home s ↔ a.Grounded zlib s := by
  rw [Arrival.Contained, Arrival.paths, Arrival.Grounded]
  cases a.packet with
  | pushMeta m f => exact iff_true_intro (contained_pushMeta _ m f)
  | pushData d f mf => exact iff_true_intro (contained_pushData (h.rooms a.room) d f mf _)
  | listReq station year code subdir =>
    exact iff_true_intro (contained_listReq _ _ _ station year code subdir)
  | dlReq key => exact iff_true_intro (contained_filePaths _ key)
  | delete key => exact iff_true_intro (contained_filePaths _ key)
  | rename key new_filename => exact iff_true_intro (contained_renamePaths _ key new_filename)
  | dbSaveMeta sender filename info =>
    exact iff_true_intro (contained_dbSaveMeta _ sender filename info _)
  | dbSaveData last =>
    refine iff_true_intro fun p hp => ?_
    dsimp only [dbSaveDataPaths] at hp
    split_ifs at hp
    · exact contained_dbListPaths _ _ p hp
    · exact absurd hp List.not_mem_nil
  | dbDlReq filename =>
    exact iff_true_intro (contained_dbFilePaths _ filename _ fun fn => List.mem_cons_self)
  | dbDelete filename => exact iff_true_intro (contained_dbDelete _ filename _)
  | modState => exact iff_true_intro fun p hp => absurd hp List.not_mem_nil
  | modData mod_id => exact contained_moduleStore home (length_modStr mod_id) a.day
  | recData => exact iff_true_intro fun p hp => absurd hp List.not_mem_nil
  | archMeta mod_id date total raw => exact iff_true_intro fun p hp => absurd hp List.not_mem_nil
  | archChunk mod_id bytes => exact iff_true_intro fun p hp => absurd hp List.not_mem_nil
  | archDone mod_id =>
    dsimp only [Packet.base]
    cases hrx : s.arch_rx a.room (modStr mod_id) with
    | none =>
      exact ⟨fun _ rx hsome => (Option.some_ne_none rx hsome.symm).elim,
        fun _ p hp => absurd hp List.not_mem_nil⟩
    | some rx =>
      have hdone := contained_archDone home zlib (s.station_id a.room)
        (length_modStr mod_id) (h.dates _ _ rx hrx)
      constructor
      · intro hall rx' hrx'
        rw [← Option.some.inj hrx']
        exact hdone.1 hall
      · exact fun hgrounded => hdone.2 (hgrounded rx rfl)
  | vhistReq mod_id => exact contained_moduleStore home (length_modStr mod_id) a.day
  | hlistReq mod_id => exact contained_hlistReq home _ (length_modStr mod_id)
  | hfetch mod_id date => exact contained_hfetch home _ (length_modStr mod_id) date
  | chListReq => exact iff_true_intro fun p hp => absurd hp List.not_mem_nil
  | toStation => exact iff_true_intro fun p hp => absurd hp List.not_mem_nil
  | recv mod_id on =>
    cases on with
    | false =>
      exact ⟨fun _ hon => Bool.noConfusion hon, fun _ p hp => absurd hp List.not_mem_nil⟩
    | true =>
      have hstore := contained_moduleStore home (length_modStr mod_id) a.day
      exact ⟨fun hall _ => hstore.1 hall, fun hgrounded => hstore.2 (hgrounded rfl)⟩

/-- Whatever packets have come, the paths of the next one lie in the directory of its subsystem
exactly if it is grounded. -/
theorem contained_iff (home : Bytes) (station_id : ℕ → Bytes) (as : List Arrival) (a : Arrival) :
    a.Contained zlib home (served zstd home station_id as) ↔
      a.Grounded zlib (served zstd home station_id as) :=
  (kept_served zstd station_id as).contained_iff_grounded zlib a

end

/-- No file exists. -/
def noFiles : Files where
  fs := Fs.empty []
  mtime := fun _ => 0
  entries := fun _ => []
  isDir := fun _ => false
  ne_nil := fun _ _ h => absurd h List.not_mem_nil
  no_slash := fun _ _ h => absurd h List.not_mem_nil

/-- DATA of a module whose id is a path, as the first packet from HOST. -/
def strayData : Arrival where
  room := 0
  packet := .modData (ascii "../../x")
  now := 0
  day := (2026, 7, 1)
  files := noFiles

/-- Central makes the directory `/root/x`, and writes `/x_20260701.dat`. -/
theorem not_contained_strayData :
    ¬strayData.Contained ModulePipe.lineFeeds (ascii "/root")
      (served storedZstd (ascii "/root") (fun _ => ascii "S") []) := by
  intro h
  have hfile := h (join (join (modulesDir (ascii "/root")) (ascii "../../x"))
    (ascii "../../x_20260701.dat")) (by decide)
  rcases hfile with ⟨hway, -⟩ | hin
  · exact absurd hway (by decide)
  · exact absurd hin (by decide)

end Bewe.Paths
