import Bewe.HostMission.Model

/-!
# Removing a directory

`rm_rf_dir`, a recursion over paths in a tree that changes under it. It takes away what a path leads
to if the path does not go through anything below that (`rmRfDir_spec`). The path to the directory
of a mission is one as long as its code is a name; a code of dots is not refused, and the path then
leads to the directory of the year, of which all entries go (`get_rmRfDir_here`), or to that of the
station, of which they go until the year is gone through which the path leads (`get_rmRfDir_up`).
-/

namespace Bewe.HostMission

open Lib
open Lib.PathStep (walk places follow)
open Paths (components)

/-! ## Removing a directory -/

/-- `rm_rf_dir`; the fuel is the number of levels below the path and one. -/
def rmRfDir : ℕ → Tree Bytes Bytes → Path → Tree Bytes Bytes
  | 0, t, _ => t
  | fuel + 1, t, path =>
    match t.find path with
    | none => t
    | some p =>
      if t.isDir p then
        ((t.entries p).foldl (fun t n =>
          let full := path ++ [.name n]
          match t.find full with
          | none => t -- `stat` fails
          | some q => if t.isDir q then rmRfDir fuel t full else t.unlink full) t).rmdir path
      else t

/-- One turn of the loop over a directory. -/
def rmEntry (fuel : ℕ) (path : Path) (t : Tree Bytes Bytes) (n : Bytes) : Tree Bytes Bytes :=
  match t.find (path ++ [.name n]) with
  | none => t
  | some q =>
    if t.isDir q then rmRfDir fuel t (path ++ [.name n]) else t.unlink (path ++ [.name n])

theorem rmRfDir_succ {fuel : ℕ} {t : Tree Bytes Bytes} {path : Path} {p : List Bytes}
    (h : t.find path = some p) (hdir : t.isDir p = true) :
    rmRfDir (fuel + 1) t path =
      ((t.entries p).foldl (rmEntry fuel path) t).rmdir path := by
  rw [rmRfDir, h]
  simp only [hdir, if_true]
  rfl

/-- A path to a place that does not go through anything below it. -/
def Steady (path : Path) (p : List Bytes) : Prop :=
  p = walk [] path ∧ ∀ r ∈ places [] path, p <+: r → r = p

/-- What is left when everything in some entries of a directory has been taken away. -/
def Without (t t' : Tree Bytes Bytes) (p : List Bytes) (ns : List Bytes) : Prop :=
  ∀ r, t'.get r = if ∃ n ∈ ns, p ++ [n] <+: r then none else t.get r

theorem steady_name {path : Path} {p : List Bytes} (h : Steady path p) (n : Bytes) :
    Steady (path ++ [.name n]) (p ++ [n]) := by
  obtain ⟨rfl, h⟩ := h
  have hwalk : walk [] (path ++ [.name n]) = walk [] path ++ [n] := by
    rw [PathStep.walk_append]
    rfl
  refine ⟨hwalk.symm, fun r hr hpre => ?_⟩
  rw [PathStep.places_concat, List.mem_append, List.mem_singleton] at hr
  rcases hr with hr | hr
  · -- a place along the path would be the directory itself
    have heq := h r hr ((List.prefix_append _ _).trans hpre)
    rw [heq] at hpre
    exact absurd hpre.length_le (by simp)
  · rw [hr, hwalk]

/-- A steady path still leads to its place when entries of that have been taken away. -/
theorem find_without {t t' : Tree Bytes Bytes} {path : Path} {p : List Bytes} {ns : List Bytes}
    (hpath : Steady path p) (h : Without t t' p ns) : t'.find path = t.find path := by
  refine Tree.find_congr fun r hr => ?_
  rw [h r, if_neg]
  rintro ⟨n, -, hpre⟩
  have heq := hpath.2 r hr ((List.prefix_append _ _).trans hpre)
  rw [heq] at hpre
  exact absurd hpre.length_le (by simp)

/-- One turn takes away one entry with all that is in it. -/
theorem rmEntry_spec {fuel : ℕ}
    (ih : ∀ (t : Tree Bytes Bytes) (path : Path) (p : List Bytes) (n : Bytes),
      Steady (path ++ [.name n]) p → t.find (path ++ [.name n]) = some p → t.isDir p = true →
      (∀ q, t.get (p ++ q) ≠ none → q.length < fuel) →
      ∀ r, (rmRfDir fuel t (path ++ [.name n])).get r = if p <+: r then none else t.get r)
    {t : Tree Bytes Bytes} {path : Path} {p : List Bytes} {n : Bytes}
    (hpath : Steady (path ++ [.name n]) (p ++ [n])) (hfind : t.find path = some p)
    (hfuel : ∀ q, t.get (p ++ q) ≠ none → q.length < fuel + 1) (r : List Bytes)
    (hn : t.get (p ++ [n]) ≠ none) :
    (rmEntry fuel path t n).get r = if p ++ [n] <+: r then none else t.get r := by
  have hfull := Tree.find_name n hfind hn
  unfold rmEntry
  rw [hfull]
  dsimp only
  by_cases hdir : t.isDir (p ++ [n]) = true
  · rw [if_pos hdir]
    refine ih t path (p ++ [n]) n hpath hfull hdir (fun q hq => ?_) r
    have hlen := hfuel (n :: q) (by simpa using hq)
    simpa using hlen
  · rw [if_neg hdir]
    rw [Bool.not_eq_true] at hdir
    rw [Tree.get_unlink hfull (by simp) hdir]
    -- there is nothing below a file
    by_cases hr : r = p ++ [n]
    · rw [if_pos hr, if_pos (hr ▸ List.prefix_rfl)]
    · rw [if_neg hr]
      split_ifs with hpre
      · by_contra hget
        rw [Tree.isDir_of_prefix hpre hr hget] at hdir
        exact Bool.noConfusion hdir
      · rfl

theorem Without.cons {t t' t'' : Tree Bytes Bytes} {p : List Bytes} {ns : List Bytes} {n : Bytes}
    (h : Without t t' p ns)
    (hn : ∀ r, t''.get r = if p ++ [n] <+: r then none else t'.get r) :
    Without t t'' p (ns ++ [n]) := by
  intro r
  rw [hn r, h r]
  by_cases hpre : p ++ [n] <+: r
  · rw [if_pos hpre, if_pos ⟨n, by simp, hpre⟩]
  · rw [if_neg hpre]
    congr 1
    simp only [List.mem_append, List.mem_singleton, eq_iff_iff]
    constructor
    · rintro ⟨m, hm, hmr⟩
      exact ⟨m, Or.inl hm, hmr⟩
    · rintro ⟨m, hm | rfl, hmr⟩
      · exact ⟨m, hm, hmr⟩
      · exact absurd hmr hpre

/-- The loop takes away entries, as long as the path to the directory leads there. -/
theorem foldl_rmEntry {fuel : ℕ}
    (ih : ∀ (t : Tree Bytes Bytes) (path : Path) (p : List Bytes) (n : Bytes),
      Steady (path ++ [.name n]) p → t.find (path ++ [.name n]) = some p → t.isDir p = true →
      (∀ q, t.get (p ++ q) ≠ none → q.length < fuel) →
      ∀ r, (rmRfDir fuel t (path ++ [.name n])).get r = if p <+: r then none else t.get r)
    {t : Tree Bytes Bytes} {path : Path} {p : List Bytes} {S : Bytes → Prop}
    (hpath : ∀ n, S n → Steady (path ++ [.name n]) (p ++ [n]))
    (hfind : ∀ t' ds, (∀ d ∈ ds, S d) → Without t t' p ds → t'.find path = some p)
    (hfuel : ∀ q, t.get (p ++ q) ≠ none → q.length < fuel + 1) {ns : List Bytes} (hns : ns.Nodup)
    (hS : ∀ n ∈ ns, S n) (hin : ∀ n ∈ ns, t.get (p ++ [n]) ≠ none) {t' : Tree Bytes Bytes}
    (ds : List Bytes) (hds : ∀ d ∈ ds, S d ∧ d ∉ ns) (h : Without t t' p ds) :
    Without t (ns.foldl (rmEntry fuel path) t') p (ds ++ ns) := by
  induction ns generalizing t' ds with
  | nil => rwa [List.append_nil]
  | cons n ns loop =>
    rw [List.nodup_cons] at hns
    rw [List.forall_mem_cons] at hS hin
    have hkept : ∀ q, t'.get q ≠ none → t.get q ≠ none := by
      intro q hq hnone
      rw [h q, hnone, ite_self] at hq
      exact hq rfl
    have hget : t'.get (p ++ [n]) ≠ none := by
      rw [h, if_neg]
      · exact hin.1
      · rintro ⟨d, hd, hpre⟩
        rw [PathStep.name_eq_of_prefixes hpre List.prefix_rfl] at hd
        exact (hds n hd).2 List.mem_cons_self
    have hone := rmEntry_spec ih (hpath n hS.1) (hfind t' ds (fun d hd => (hds d hd).1) h)
      (fun q hq => hfuel q (hkept _ hq)) (n := n)
    have hnext := h.cons fun r => hone r hget
    rw [List.foldl_cons]
    have hall := loop hns.2 hS.2 hin.2 _ (fun d hd => ?_) hnext
    · rwa [List.append_assoc, List.singleton_append] at hall
    · rcases List.mem_append.1 hd with hd | hd
      · exact ⟨(hds d hd).1, fun hmem => (hds d hd).2 (List.mem_cons_of_mem _ hmem)⟩
      · rw [List.mem_singleton.1 hd]
        exact ⟨hS.1, hns.1⟩

theorem without_nil (t : Tree Bytes Bytes) (p : List Bytes) : Without t t p [] := by
  intro r
  rw [if_neg]
  rintro ⟨n, hn, -⟩
  exact absurd hn List.not_mem_nil

/-- The loop over a directory whose path is steady empties it. -/
theorem foldl_entries {fuel : ℕ}
    (ih : ∀ (t : Tree Bytes Bytes) (path : Path) (p : List Bytes) (n : Bytes),
      Steady (path ++ [.name n]) p → t.find (path ++ [.name n]) = some p → t.isDir p = true →
      (∀ q, t.get (p ++ q) ≠ none → q.length < fuel) →
      ∀ r, (rmRfDir fuel t (path ++ [.name n])).get r = if p <+: r then none else t.get r)
    {t : Tree Bytes Bytes} {path : Path} {p : List Bytes} (hpath : Steady path p)
    (hfind : t.find path = some p) (hfuel : ∀ q, t.get (p ++ q) ≠ none → q.length < fuel + 1) :
    Without t ((t.entries p).foldl (rmEntry fuel path) t) p (t.entries p) := by
  have hloop := foldl_rmEntry (S := fun _ => True) ih (fun n _ => steady_name hpath n)
    (fun t' ds _ hds => (find_without hpath hds).trans hfind) hfuel (t.nodup_entries p)
    (fun _ _ => trivial) (fun n hn => Tree.mem_entries.1 hn) []
    (fun d hd => absurd hd List.not_mem_nil) (without_nil t p)
  rwa [List.nil_append] at hloop

/-- `rm_rf_dir` of a steady path that ends in a name takes away what is there, and nothing else. -/
theorem rmRfDir_spec (fuel : ℕ) (t : Tree Bytes Bytes) (path : Path) (p : List Bytes) (n : Bytes)
    (hpath : Steady (path ++ [.name n]) p) (hfind : t.find (path ++ [.name n]) = some p)
    (hdir : t.isDir p = true) (hfuel : ∀ q, t.get (p ++ q) ≠ none → q.length < fuel)
    (r : List Bytes) :
    (rmRfDir fuel t (path ++ [.name n])).get r = if p <+: r then none else t.get r := by
  induction fuel generalizing t path p n r with
  | zero =>
    have hp : t.get (p ++ []) ≠ none := by
      rw [List.append_nil, Tree.isDir_iff.1 hdir]
      exact Option.some_ne_none _
    exact absurd (hfuel [] hp) (Nat.lt_irrefl 0)
  | succ fuel ih =>
    have hne : p ≠ [] := by
      rw [hpath.1, PathStep.walk_append]
      exact List.append_ne_nil_of_right_ne_nil _ (List.cons_ne_nil _ _)
    rw [rmRfDir_succ hfind hdir]
    have hloop := foldl_entries ih hpath hfind hfuel
    generalize (t.entries p).foldl (rmEntry fuel (path ++ [.name n])) t = t' at hloop
    -- the directory itself is still there, and empty
    have hself : t'.get p = t.get p := by
      rw [hloop p, if_neg]
      rintro ⟨m, -, hpre⟩
      exact absurd hpre.length_le (by simp)
    have hempty : t'.entries p = [] := by
      refine List.eq_nil_iff_forall_not_mem.2 fun m hm => ?_
      rw [Tree.mem_entries, hloop] at hm
      split_ifs at hm with hpre
      · exact hm rfl
      · exact hpre ⟨m, Tree.mem_entries.2 hm, List.prefix_rfl⟩
    rw [Tree.get_rmdir ((find_without hpath hloop).trans hfind) hne
      ((Tree.isDir_congr hself).trans hdir) hempty, hloop r]
    by_cases hr : r = p
    · rw [if_pos hr, if_pos (hr ▸ List.prefix_rfl)]
    · rw [if_neg hr]
      by_cases hpre : p <+: r
      · rw [if_pos hpre]
        split_ifs with hentry
        · rfl
        · obtain ⟨q, rfl⟩ := hpre
          obtain ⟨m, q, rfl⟩ := List.exists_cons_of_ne_nil
            (show q ≠ [] from fun hq => hr (by rw [hq, List.append_nil]))
          by_contra hget
          refine hentry ⟨m, Tree.mem_entries.2 ?_, ⟨q, by simp⟩⟩
          rcases eq_or_ne q [] with rfl | hq
          · exact hget
          · have happ : p ++ m :: q = p ++ [m] ++ q := by simp
            rw [happ] at hget
            rw [Tree.isDir_iff.1 (Tree.isDir_of_get hq hget)]
            exact Option.some_ne_none _
      · rw [if_neg hpre, if_neg]
        rintro ⟨m, -, hm⟩
        exact hpre ((List.prefix_append _ _).trans hm)

/-! ## The directory of a mission -/

section

variable (recordings : List Bytes)

/-- The directory of the missions without a station, and that of their year. -/
def unknownDir : List Bytes := missionsRoot recordings ++ [unknownStation]
@[inherit_doc unknownDir] def unknownYear (year : Int32) : List Bytes :=
  unknownDir recordings ++ [padInt 4 year.toInt]

/-- What is taken away with all that is in it: the directory of the code, or what the path with a
code of dots leads to. -/
def takenDirs (t : Tree Bytes Bytes) (year : Int32) (code : Bytes) : List (List Bytes) :=
  if code = ascii "." then
    (t.entries (unknownYear recordings year)).map (unknownYear recordings year ++ [·])
  else if code = ascii ".." then
    if t.isDir (unknownYear recordings year) then
      ((t.entries (unknownDir recordings)).takeWhile (· ≠ padInt 4 year.toInt) ++
        [padInt 4 year.toInt]).map (unknownDir recordings ++ [·])
    else []
  else if t.isDir (unknownYear recordings year ++ [code]) then
    [unknownYear recordings year ++ [code]]
  else []

/-- Whether a place is taken away. -/
def Taken (t : Tree Bytes Bytes) (year : Int32) (code : Bytes) (r : List Bytes) : Prop :=
  ∃ d ∈ takenDirs recordings t year code, d <+: r

instance (t : Tree Bytes Bytes) (year : Int32) (code : Bytes) (r : List Bytes) :
    Decidable (Taken recordings t year code r) :=
  inferInstanceAs (Decidable (∃ d ∈ _, d <+: r))

/-- The text of a positive year is a name. -/
theorem safeName_year {year : Int32} (hyear : 0 < year) : Paths.SafeName (padInt 4 year.toInt) := by
  have hpos : ¬year.toInt < 0 := by
    have h : (0 : Int32).toInt < year.toInt := Int32.lt_iff_toInt_lt.1 hyear
    simpa using h.le
  have hpad : padInt 4 year.toInt =
      List.replicate (4 - (intText year.toInt).length) (digitByte 0) ++
        natText year.toInt.natAbs := by
    simp [padInt, hpos, signText]
  obtain ⟨c, hc⟩ := List.exists_mem_of_ne_nil _ (natText_ne_nil year.toInt.natAbs)
  refine Paths.SafeName.of_mem (c := c) (by rw [hpad]; exact List.mem_append_right _ hc) ?_ ?_
  · rintro rfl
    exact absurd (isDigit_of_mem_natText hc) (by decide)
  · intro hslash
    rw [hpad] at hslash
    rcases List.mem_append.1 hslash with h | h
    · exact absurd (List.eq_of_mem_replicate h) (by decide)
    · exact Paths.slash_notMem_natText _ h

/-- The last component of the path. -/
def codeStep (code : Bytes) : PathStep Bytes :=
  if code = ascii "." then .here else if code = ascii ".." then .up else .name code

/-- The path to the directory that is removed. -/
theorem missionDir_unknown {year : Int32} (hyear : 0 < year) {code : Bytes} (hne : code ≠ [])
    (hslash : slash ∉ code) :
    missionDir recordings unknownStation year code =
      (unknownYear recordings year).map .name ++ [codeStep code] := by
  have hstation : components unknownStation = [.name unknownStation] :=
    Paths.components_of_safe ⟨by decide, by decide, by decide, by decide⟩
  have hcode : components code = [codeStep code] := by
    rw [components, List.splitOn_eq_singleton hslash]
    simp only [List.map_cons, List.map_nil, hne, false_or]
    rfl
  rw [missionDir, Paths.components_join, Paths.components_join, hstation,
    Paths.components_of_safe (safeName_year hyear), hcode]
  simp [unknownYear, unknownDir]

/-- The places along a path of names and one component more. -/
theorem mem_places_names {q r : List Bytes} {c : PathStep Bytes}
    (h : r ∈ places [] (q.map .name ++ [c])) : r <+: q ∨ r = follow q c := by
  rw [PathStep.places_concat, PathStep.walk_append, PathStep.walk_names, List.nil_append,
    List.mem_append, List.mem_singleton] at h
  rcases h with h | h
  · left
    simpa using PathStep.prefix_of_mem_places h
  · exact Or.inr h

theorem length_lt_of_get {t : Tree Bytes Bytes} {p q : List Bytes} (h : t.get (p ++ q) ≠ none) :
    q.length < t.height + 1 := by
  have hle := Tree.length_le_height h
  rw [List.length_append] at hle
  omega

/-- A path of names and one component more leads on from a directory only. -/
theorem isDir_of_find {t : Tree Bytes Bytes} {q p : List Bytes} {c : PathStep Bytes}
    (h : t.find (q.map .name ++ [c]) = some p) : t.isDir q = true := by
  rw [Tree.find, Tree.findFrom_concat] at h
  obtain ⟨q', hq', hp⟩ := Option.bind_eq_some_iff.1 h
  have hq : q' = q := by
    have hwalk := (Tree.find_some hq').1
    rwa [PathStep.walk_names, List.nil_append] at hwalk
  rw [hq] at hp
  split_ifs at hp with hdir
  exact hdir

theorem find_step {t : Tree Bytes Bytes} {q : List Bytes} {c : PathStep Bytes}
    (hdir : t.isDir q = true) (hc : t.get (follow q c) ≠ none) :
    t.find (q.map .name ++ [c]) = some (follow q c) := by
  have hq : t.find (q.map .name) = some q := Tree.find_names (by
    rw [Tree.isDir_iff.1 hdir]
    exact Option.some_ne_none _)
  rw [Tree.find] at hq
  rw [Tree.find, Tree.findFrom_concat, hq, Option.bind_some, if_pos hdir, Tree.findFrom,
    if_pos (Option.isSome_iff_ne_none.2 hc)]

/-- Where the path leads nowhere, nothing is removed. -/
theorem rmRfDir_of_not_isDir {t : Tree Bytes Bytes} {fuel : ℕ} {path : Path}
    (h : ∀ p, t.find path = some p → t.isDir p = false) : rmRfDir fuel t path = t := by
  cases fuel with
  | zero => rfl
  | succ fuel =>
    rw [rmRfDir]
    cases hfind : t.find path with
    | none => rfl
    | some p =>
      dsimp only
      rw [if_neg (by rw [h p hfind]; exact Bool.false_ne_true)]

/-- A name as a code: its directory goes. -/
theorem get_rmRfDir_name {t : Tree Bytes Bytes} {q : List Bytes} {n : Bytes} (r : List Bytes) :
    (rmRfDir (t.height + 1) t (q.map .name ++ [.name n])).get r =
      if t.isDir (q ++ [n]) = true ∧ q ++ [n] <+: r then none else t.get r := by
  have hnames : q.map PathStep.name ++ [.name n] = (q ++ [n]).map .name := by simp
  by_cases hdir : t.isDir (q ++ [n]) = true
  · have hfind : t.find (q.map .name ++ [.name n]) = some (q ++ [n]) := by
      rw [hnames]
      exact Tree.find_names (by rw [Tree.isDir_iff.1 hdir]; exact Option.some_ne_none _)
    have hsteady : Steady (q.map .name ++ [.name n]) (q ++ [n]) := by
      refine ⟨(Tree.find_some hfind).1, fun r hr hpre => ?_⟩
      rcases mem_places_names hr with hr | hr
      · exact absurd (hpre.trans hr).length_le (by simp)
      · exact hr
    rw [rmRfDir_spec _ t _ _ _ hsteady hfind hdir (fun _ hq => length_lt_of_get hq)]
    simp only [hdir, true_and]
  · rw [rmRfDir_of_not_isDir, if_neg fun h => hdir h.1]
    intro p hp
    have hp' := (Tree.find_some hp).1
    rw [hnames, PathStep.walk_names, List.nil_append] at hp'
    rw [hp', Bool.eq_false_iff]
    exact hdir

/-- A dot: what is in the directory goes, and the directory stays. -/
theorem get_rmRfDir_here {t : Tree Bytes Bytes} {q : List Bytes} (r : List Bytes) :
    (rmRfDir (t.height + 1) t (q.map .name ++ [.here])).get r =
      if ∃ n ∈ t.entries q, q ++ [n] <+: r then none else t.get r := by
  by_cases hdir : t.isDir q = true
  · have hget : t.get q ≠ none := by
      rw [Tree.isDir_iff.1 hdir]
      exact Option.some_ne_none _
    have hfind : t.find (q.map .name ++ [.here]) = some q := find_step hdir hget
    have hsteady : Steady (q.map .name ++ [.here]) q := by
      refine ⟨(Tree.find_some hfind).1, fun r hr hpre => ?_⟩
      rcases mem_places_names hr with hr | hr
      · exact hr.eq_of_length_le hpre.length_le
      · exact hr
    have hloop := foldl_entries (rmRfDir_spec t.height) hsteady hfind
      (fun _ hq => length_lt_of_get hq)
    rw [rmRfDir_succ hfind hdir]
    generalize (t.entries q).foldl (rmEntry t.height (q.map .name ++ [.here])) t = t' at hloop
    have hrmdir : t'.rmdir (q.map .name ++ [.here]) = t' := by
      rw [Tree.rmdir, List.getLast?_concat]
    rw [hrmdir, hloop r]
  · rw [rmRfDir_of_not_isDir, if_neg]
    · rintro ⟨n, hn, -⟩
      rw [Tree.entries_of_not_isDir (Bool.eq_false_iff.2 hdir)] at hn
      exact absurd hn List.not_mem_nil
    · exact fun p hp => absurd (isDir_of_find hp) hdir

/-- Two dots: the entries of the directory above go, up to the one through which the path leads. -/
theorem get_rmRfDir_up {t : Tree Bytes Bytes} {u : List Bytes} {y : Bytes} (r : List Bytes) :
    (rmRfDir (t.height + 1) t ((u ++ [y]).map .name ++ [.up])).get r =
      if t.isDir (u ++ [y]) = true ∧
          ∃ n ∈ (t.entries u).takeWhile (· ≠ y) ++ [y], u ++ [n] <+: r then none
      else t.get r := by
  by_cases hdir : t.isDir (u ++ [y]) = true
  swap
  · rw [rmRfDir_of_not_isDir fun p hp => absurd (isDir_of_find hp) hdir, if_neg fun h => hdir h.1]
  have hget : t.get (u ++ [y]) ≠ none := by
    rw [Tree.isDir_iff.1 hdir]
    exact Option.some_ne_none _
  have hup : follow (u ++ [y]) .up = u := List.dropLast_concat
  have hu : t.isDir u = true := Tree.isDir_of_get (List.cons_ne_nil _ _) hget
  generalize hpath : (u ++ [y]).map PathStep.name ++ [.up] = path
  have hplaces : ∀ r ∈ places [] path, r <+: u ++ [y] ∨ r = u := by
    intro r hr
    rw [← hpath] at hr
    rcases mem_places_names hr with hr | hr
    · exact Or.inl hr
    · rw [hup] at hr
      exact Or.inr hr
  have hwalk : walk [] path = u := by
    rw [← hpath, PathStep.walk_append, PathStep.walk_names]
    exact hup
  have hfind : t.find path = some u := by
    rw [← hpath, find_step hdir (by rw [hup, Tree.isDir_iff.1 hu]; exact Option.some_ne_none _),
      hup]
  have hsteady : ∀ n, Steady (path ++ [.name n]) (u ++ [n]) := by
    intro n
    have hlast : walk [] (path ++ [.name n]) = u ++ [n] := by
      rw [PathStep.walk_append, hwalk]
      rfl
    refine ⟨hlast.symm, fun r hr hpre => ?_⟩
    rw [PathStep.places_concat, List.mem_append, List.mem_singleton] at hr
    rcases hr with hr | hr
    · rcases hplaces r hr with hr | rfl
      · exact (hpre.eq_of_length_le (by simpa using hr.length_le)).symm
      · exact absurd hpre.length_le (by simp)
    · exact hr.trans hlast
  -- the path leads there as long as the year is there
  have hkept : ∀ t' ds, (∀ d ∈ ds, d ≠ y) → Without t t' u ds → t'.find path = some u := by
    intro t' ds hds h
    rw [← hfind]
    refine Tree.find_congr fun r hr => ?_
    rw [h r, if_neg]
    rintro ⟨d, hd, hpre⟩
    rcases hplaces r hr with hr | rfl
    · exact hds d hd (PathStep.name_eq_of_prefixes (hpre.trans hr) List.prefix_rfl)
    · exact absurd hpre.length_le (by simp)
  have hy : y ∈ t.entries u := Tree.mem_entries.2 hget
  have hsplit : t.entries u = (t.entries u).takeWhile (· ≠ y) ++
      y :: ((t.entries u).dropWhile (· ≠ y)).tail := by
    have hhead : (t.entries u).dropWhile (· ≠ y) =
        y :: ((t.entries u).dropWhile (· ≠ y)).tail := by
      obtain ⟨z, zs, hz⟩ := List.exists_cons_of_ne_nil (l := (t.entries u).dropWhile (· ≠ y))
        (fun hnil => by simpa using List.dropWhile_eq_nil_iff.1 hnil y hy)
      have hzy : z = y := by
        have hnot := List.head?_dropWhile_not (fun n => decide (n ≠ y)) (t.entries u)
        rw [hz] at hnot
        simpa using hnot
      rw [hz, hzy]
      rfl
    calc t.entries u
      _ = (t.entries u).takeWhile (· ≠ y) ++ (t.entries u).dropWhile (· ≠ y) :=
        List.takeWhile_append_dropWhile.symm
      _ = _ := by rw [← hhead]
  generalize hbefore : (t.entries u).takeWhile (· ≠ y) = before at hsplit ⊢
  generalize ((t.entries u).dropWhile (· ≠ y)).tail = after at hsplit
  have hne : ∀ n ∈ before, n ≠ y := by
    intro n hn
    rw [← hbefore] at hn
    simpa using List.mem_takeWhile_imp hn
  have hnodup : before.Nodup := by
    rw [← hbefore]
    exact (List.takeWhile_sublist _).nodup (t.nodup_entries u)
  have hin : ∀ n ∈ before, t.get (u ++ [n]) ≠ none := by
    intro n hn
    rw [← hbefore] at hn
    exact Tree.mem_entries.1 ((List.takeWhile_sublist _).mem hn)
  have hfirst := foldl_rmEntry (S := (· ≠ y)) (rmRfDir_spec t.height) (fun n _ => hsteady n) hkept
    (fun _ hq => length_lt_of_get hq) hnodup hne hin []
    (fun d hd => absurd hd List.not_mem_nil) (without_nil t u)
  rw [List.nil_append] at hfirst
  rw [rmRfDir_succ hfind hu, hsplit, List.foldl_append, List.foldl_cons]
  generalize before.foldl (rmEntry t.height path) t = t₁ at hfirst
  have hget₁ : t₁.get (u ++ [y]) ≠ none := by
    rw [hfirst, if_neg]
    · exact hget
    · rintro ⟨n, hn, hpre⟩
      exact hne n hn (PathStep.name_eq_of_prefixes hpre List.prefix_rfl)
  have hsecond := hfirst.cons fun r => rmEntry_spec (rmRfDir_spec t.height) (hsteady y)
    (hkept t₁ before hne hfirst) (fun q hq => length_lt_of_get (t := t) (p := u) (by
      intro hnone
      rw [hfirst, hnone, ite_self] at hq
      exact hq rfl)) r hget₁
  generalize rmEntry t.height path t₁ y = t₂ at hsecond
  -- the rest of the entries is not found
  have hgone : t₂.find path = none := by
    by_contra hfound
    obtain ⟨p, hp⟩ := Option.ne_none_iff_exists'.1 hfound
    have hyear : t₂.isDir (u ++ [y]) = true := isDir_of_find (hpath ▸ hp)
    rw [Tree.isDir_iff, hsecond, if_pos ⟨y, by simp, List.prefix_rfl⟩] at hyear
    cases hyear
  have hrest : ∀ ns : List Bytes, ns.foldl (rmEntry t.height path) t₂ = t₂ := by
    intro ns
    induction ns with
    | nil => rfl
    | cons n ns ih =>
      have hone : rmEntry t.height path t₂ n = t₂ := by
        rw [rmEntry, Tree.find_concat_none _ hgone]
      rw [List.foldl_cons, hone, ih]
  have hrmdir : t₂.rmdir path = t₂ := by
    rw [← hpath, Tree.rmdir, List.getLast?_concat]
  rw [hrest, hrmdir, hsecond r]
  simp only [hdir, true_and]

/-- `rm_rf_dir` of the directory that is looked up takes away what `takenDirs` says. -/
theorem get_rmRfDir_unknown (t : Tree Bytes Bytes) {year : Int32} (hyear : 0 < year) {code : Bytes}
    (hne : code ≠ []) (hslash : slash ∉ code) (r : List Bytes) :
    (rmRfDir (t.height + 1) t (missionDir recordings unknownStation year code)).get r =
      if Taken recordings t year code r then none else t.get r := by
  rw [missionDir_unknown recordings hyear hne hslash]
  unfold codeStep Taken takenDirs
  by_cases hdot : code = ascii "."
  · simp only [if_pos hdot]
    rw [get_rmRfDir_here]
    simp only [List.mem_map, exists_exists_and_eq_and]
  · simp only [if_neg hdot]
    by_cases hdots : code = ascii ".."
    · simp only [if_pos hdots]
      rw [unknownYear, get_rmRfDir_up]
      by_cases hdir : t.isDir (unknownDir recordings ++ [padInt 4 year.toInt]) = true
      · simp only [hdir, if_true, true_and, List.mem_map, exists_exists_and_eq_and]
      · simp [hdir]
    · simp only [if_neg hdots]
      rw [get_rmRfDir_name]
      by_cases hdir : t.isDir (unknownYear recordings year ++ [code]) = true
      · simp [hdir]
      · simp [hdir]

end

end Bewe.HostMission
