import Mathlib.Data.Multiset.AddSub
import Bewe.Lib.Tree

/-!
# Giving a part of a tree another place

`rename` gives what is at a place another one, with all that is below it (`get_graft`): where there
is nothing, where there is a file if it is a file, or where there is an empty directory if it is a
directory. Else nothing happens. So no file is lost but the one that another takes the place of
(`contents_moveInto`).
-/

namespace Lib

namespace Tree

open PathStep

variable {ν β : Type*} [DecidableEq ν]

/-! ## Contents -/

/-- The content of a file. -/
def content? : Node β → Option β
  | .dir => none
  | .file b => some b

/-- The contents of all files. -/
def contents (t : Tree ν β) : Multiset β :=
  (t.nodes.entries.filterMap fun e => content? e.2 : List β)

theorem mem_entries_iff {t : Tree ν β} {p : List ν} {x : Node β} :
    (⟨p, x⟩ : Sigma fun _ : List ν => Node β) ∈ t.nodes.entries ↔ t.get p = some x :=
  AList.mem_lookup_iff.symm

/-- The contents follow from what is at every place. -/
theorem contents_congr {t t' : Tree ν β} (h : ∀ r, t.get r = t'.get r) :
    t.contents = t'.contents := by
  have hperm : t.nodes.entries.Perm t'.nodes.entries := by
    refine List.lookup_ext t.nodes.nodupKeys t'.nodes.nodupKeys fun r x => ?_
    exact Eq.to_iff (congrArg (x ∈ ·) (h r))
  exact Multiset.coe_eq_coe.2 (hperm.filterMap _)

/-- A place where there was nothing. -/
theorem contents_put {t : Tree ν β} {p : List ν} {n : ν} {x : Node β} (hp : t.get p = some .dir)
    (hn : t.get (p ++ [n]) ≠ some .dir) (hnone : t.get (p ++ [n]) = none) :
    (t.put p n x hp hn).contents = Multiset.ofList (content? x).toList + t.contents := by
  have hmem : p ++ [n] ∉ t.nodes := by
    rw [← get_ne_none_iff]
    exact not_not.2 hnone
  rw [contents, put, AList.entries_insert_of_notMem hmem, List.filterMap_cons]
  cases content? x <;> rfl

theorem contents_remove {t : Tree ν β} {p : List ν} {x : Node β} (hp : p ≠ [])
    (hempty : t.entries p = []) (hx : t.get p = some x) :
    t.contents = Multiset.ofList (content? x).toList + (t.remove p).contents := by
  have hmem : p ∉ t.nodes.erase p := by
    rw [AList.mem_erase]
    exact fun h => h.1 rfl
  have hperm : t.nodes.entries.Perm (⟨p, x⟩ :: (t.nodes.erase p).entries) := by
    rw [← AList.entries_insert_of_notMem hmem]
    refine List.lookup_ext t.nodes.nodupKeys (AList.nodupKeys _) fun r y => ?_
    refine Eq.to_iff (congrArg (y ∈ ·) ?_)
    change t.nodes.lookup r = ((t.nodes.erase p).insert p x).lookup r
    by_cases hr : r = p
    · rw [hr, AList.lookup_insert]
      exact hx
    · rw [AList.lookup_insert_ne hr, AList.lookup_erase_ne hr]
  have hnodes : (t.remove p).nodes = t.nodes.erase p := by
    rw [remove, dif_pos ⟨hp, hempty⟩]
  rw [contents, contents, hnodes, Multiset.coe_eq_coe.2 (hperm.filterMap _), List.filterMap_cons]
  cases content? x <;> rfl

/-- Where there is nothing, nothing is taken away. -/
theorem get_remove_of_none {t : Tree ν β} {p : List ν} (h : t.get p = none) (r : List ν) :
    (t.remove p).get r = t.get r := by
  have hne : p ≠ [] := by
    rintro rfl
    rw [get, t.root] at h
    cases h
  have hempty : t.entries p = [] := by
    refine entries_of_not_isDir ?_
    rw [isDir, h]
  rw [get_remove hne hempty]
  split_ifs with hr
  · rw [hr, h]
  · rfl

theorem entries_eq_nil_iff {t : Tree ν β} {p : List ν} :
    t.entries p = [] ↔ ∀ n, t.get (p ++ [n]) = none := by
  rw [List.eq_nil_iff_forall_not_mem]
  exact forall_congr' fun n => by rw [mem_entries, not_not]

/-! ## Another place -/

/-- Where a place comes to be when what is at `p` goes to `q`. -/
def movedTo (p q r : List ν) : List ν := if p <+: r then q ++ r.drop p.length else r

theorem movedTo_append (p q s : List ν) : movedTo p q (p ++ s) = q ++ s := by
  rw [movedTo, if_pos (List.prefix_append _ _), List.drop_left]

theorem movedTo_of_not_below {p q r : List ν} (h : ¬p <+: r) : movedTo p q r = r := if_neg h

theorem keys_map_movedTo (p q : List ν) (l : List (Sigma fun _ : List ν => Node β)) :
    (l.map fun e => (⟨movedTo p q e.1, e.2⟩ : Sigma fun _ : List ν => Node β)).keys =
      l.keys.map (movedTo p q) := by
  simp [List.keys, Function.comp_def]

/-- There is nothing below what is not there. -/
theorem get_append_eq_none {t : Tree ν β} {p : List ν} (h : t.get p = none) (s : List ν) :
    t.get (p ++ s) = none := by
  rcases eq_or_ne s [] with rfl | hs
  · rwa [List.append_nil]
  · by_contra hne
    have hdir := isDir_of_get hs hne
    rw [isDir_iff, h] at hdir
    cases hdir

/-- What is at `p` goes where there is nothing. -/
def graft (t : Tree ν β) (p q : List ν) (n : ν) (hp : p ≠ []) (hq : t.get q = some .dir)
    (hn : t.get (q ++ [n]) = none) (hpq : ¬p <+: q) : Tree ν β where
  nodes :=
    { entries := t.nodes.entries.map fun e => ⟨movedTo p (q ++ [n]) e.1, e.2⟩
      nodupKeys := by
        rw [List.NodupKeys, keys_map_movedTo]
        refine List.Nodup.map_on (fun r hr r' hr' heq => ?_) t.nodes.keys_nodup
        have hclash : ∀ k ∈ t.nodes.keys, ∀ s, k ≠ q ++ [n] ++ s := by
          rintro k hk s rfl
          exact get_ne_none_iff.2 (AList.mem_keys.2 hk) (get_append_eq_none hn s)
        by_cases h : p <+: r <;> by_cases h' : p <+: r'
        · obtain ⟨s, rfl⟩ := h
          obtain ⟨s', rfl⟩ := h'
          rw [movedTo_append, movedTo_append] at heq
          rw [List.append_cancel_left heq]
        · obtain ⟨s, rfl⟩ := h
          rw [movedTo_append, movedTo_of_not_below h'] at heq
          exact absurd heq.symm (hclash r' hr' s)
        · obtain ⟨s, rfl⟩ := h'
          rw [movedTo_append, movedTo_of_not_below h] at heq
          exact absurd heq (hclash r hr s)
        · rwa [movedTo_of_not_below h, movedTo_of_not_below h'] at heq }
  root := by
    rw [← Option.mem_def, AList.mem_lookup_iff, List.mem_map]
    refine ⟨⟨[], .dir⟩, mem_entries_iff.2 t.root, ?_⟩
    rw [movedTo_of_not_below fun h => hp (List.prefix_nil.1 h)]
  closed := by
    intro r m hr
    rw [AList.mem_mk, keys_map_movedTo, List.mem_map] at hr
    obtain ⟨k, hk, heq⟩ := hr
    rw [← Option.mem_def, AList.mem_lookup_iff, List.mem_map]
    have hget : t.get k ≠ none := get_ne_none_iff.2 (AList.mem_keys.2 hk)
    by_cases h : p <+: k
    · obtain ⟨s, rfl⟩ := h
      rw [movedTo_append] at heq
      rcases List.eq_nil_or_concat s with rfl | ⟨s, l, rfl⟩
      · -- the place itself, which lies in `q`
        rw [List.append_nil] at heq
        obtain ⟨rfl, -⟩ := List.append_inj' heq rfl
        exact ⟨⟨q, .dir⟩, mem_entries_iff.2 hq, by rw [movedTo_of_not_below hpq]⟩
      · rw [List.concat_eq_append, ← List.append_assoc] at heq hget
        obtain ⟨rfl, -⟩ := List.append_inj' heq rfl
        have hdir := isDir_iff.1 (isDir_of_get (List.cons_ne_nil _ _) hget)
        exact ⟨⟨p ++ s, .dir⟩, mem_entries_iff.2 hdir, by rw [movedTo_append]⟩
    · rw [movedTo_of_not_below h] at heq
      rw [heq] at hget h
      have hdir := isDir_iff.1 (isDir_of_get (List.cons_ne_nil _ _) hget)
      have hr : ¬p <+: r := fun hpre => h (hpre.trans (List.prefix_append _ _))
      exact ⟨⟨r, .dir⟩, mem_entries_iff.2 hdir, by rw [movedTo_of_not_below hr]⟩

theorem get_graft {t : Tree ν β} {p q : List ν} {n : ν} (hp : p ≠ []) (hq : t.get q = some .dir)
    (hn : t.get (q ++ [n]) = none) (hpq : ¬p <+: q) (r : List ν) :
    (t.graft p q n hp hq hn hpq).get r =
      if q ++ [n] <+: r then t.get (p ++ r.drop (q ++ [n]).length)
      else if p <+: r then none else t.get r := by
  have hiff : ∀ x, (t.graft p q n hp hq hn hpq).get r = some x ↔
      ∃ k, t.get k = some x ∧ movedTo p (q ++ [n]) k = r := by
    intro x
    rw [← mem_entries_iff, graft, List.mem_map]
    constructor
    · rintro ⟨⟨k, y⟩, hk, heq⟩
      obtain ⟨hkr, hy⟩ := Sigma.mk.inj heq
      obtain rfl := eq_of_heq hy
      exact ⟨k, mem_entries_iff.1 hk, hkr⟩
    · rintro ⟨k, hk, rfl⟩
      exact ⟨⟨k, x⟩, mem_entries_iff.2 hk, rfl⟩
  have hbelow := get_append_eq_none hn
  refine Option.ext fun x => ?_
  rw [hiff]
  split_ifs with hqr hpr
  · obtain ⟨s, rfl⟩ := hqr
    rw [List.drop_left]
    constructor
    · rintro ⟨k, hk, heq⟩
      by_cases h : p <+: k
      · obtain ⟨s', rfl⟩ := h
        rw [movedTo_append] at heq
        rwa [← List.append_cancel_left heq]
      · rw [movedTo_of_not_below h] at heq
        rw [heq, hbelow] at hk
        cases hk
    · exact fun hk => ⟨p ++ s, hk, movedTo_append _ _ _⟩
  · constructor
    · rintro ⟨k, hk, rfl⟩
      by_cases h : p <+: k
      · obtain ⟨s, rfl⟩ := h
        rw [movedTo_append] at hqr
        exact absurd (List.prefix_append _ _) hqr
      · rw [movedTo_of_not_below h] at hpr
        exact absurd hpr h
    · intro hx
      cases hx
  · constructor
    · rintro ⟨k, hk, rfl⟩
      by_cases h : p <+: k
      · obtain ⟨s, rfl⟩ := h
        rw [movedTo_append] at hqr
        exact absurd (List.prefix_append _ _) hqr
      · rwa [movedTo_of_not_below h]
    · exact fun hk => ⟨r, hk, movedTo_of_not_below hpr⟩

theorem contents_graft {t : Tree ν β} {p q : List ν} {n : ν} (hp : p ≠ [])
    (hq : t.get q = some .dir) (hn : t.get (q ++ [n]) = none) (hpq : ¬p <+: q) :
    (t.graft p q n hp hq hn hpq).contents = t.contents := by
  rw [contents, contents, graft, List.filterMap_map]
  rfl

/-! ## Renaming -/

/-- Whether what is at `p` can be given the name `n` in `q`, and is not what has it. -/
def Renamable (t : Tree ν β) (p q : List ν) (n : ν) : Prop :=
  p ≠ [] ∧ t.get p ≠ none ∧ t.isDir q = true ∧ q ++ [n] ≠ p ∧ ¬p <+: q ∧
    (t.get (q ++ [n]) = none ∨ t.isDir p = t.isDir (q ++ [n]) ∧ t.entries (q ++ [n]) = [])

instance (t : Tree ν β) (p q : List ν) (n : ν) : Decidable (t.Renamable p q n) :=
  inferInstanceAs (Decidable (_ ∧ _))

theorem get_cleared {t : Tree ν β} {p q : List ν} {n : ν} (h : t.Renamable p q n) (r : List ν) :
    (t.remove (q ++ [n])).get r = if r = q ++ [n] then none else t.get r := by
  obtain ⟨-, -, -, -, -, hnone | ⟨-, hempty⟩⟩ := h
  · rw [get_remove_of_none hnone]
    split_ifs with hr
    · rw [hr, hnone]
    · rfl
  · exact get_remove (by simp) hempty r

/-- What is at `p` gets the name `n` in `q`, in place of what has it. -/
def moveInto (t : Tree ν β) (p q : List ν) (n : ν) (h : t.Renamable p q n) : Tree ν β :=
  (t.remove (q ++ [n])).graft p q n h.1
    (by
      rw [get_cleared h, if_neg (by simp)]
      exact isDir_iff.1 h.2.2.1)
    (by rw [get_cleared h, if_pos rfl]) h.2.2.2.2.1

theorem get_moveInto {t : Tree ν β} {p q : List ν} {n : ν} (h : t.Renamable p q n) (r : List ν) :
    (t.moveInto p q n h).get r =
      if q ++ [n] <+: r then t.get (p ++ r.drop (q ++ [n]).length)
      else if p <+: r then none else t.get r := by
  obtain ⟨-, -, -, hne, hpq, -⟩ := id h
  have hother : ∀ s, p ++ s ≠ q ++ [n] := by
    intro s heq
    rcases List.eq_nil_or_concat s with rfl | ⟨s, m, rfl⟩
    · exact hne (by rw [← heq, List.append_nil])
    · rw [List.concat_eq_append, ← List.append_assoc] at heq
      exact hpq ⟨s, (List.append_inj' heq rfl).1⟩
  rw [moveInto, get_graft, get_cleared h, get_cleared h, if_neg (hother _)]
  split_ifs with hqr hpr hr
  · rfl
  · rfl
  · exact absurd (hr ▸ List.prefix_rfl) hqr
  · rfl

/-- No file is lost but the one that had the name. -/
theorem contents_moveInto {t : Tree ν β} {p q : List ν} {n : ν} (h : t.Renamable p q n) :
    t.contents = Multiset.ofList ((t.get (q ++ [n])).bind content?).toList +
      (t.moveInto p q n h).contents := by
  rw [moveInto, contents_graft]
  cases hget : t.get (q ++ [n]) with
  | none => simpa using contents_congr fun r => (get_remove_of_none hget r).symm
  | some x =>
    obtain ⟨-, -, -, -, -, hnone | ⟨-, hempty⟩⟩ := id h
    · rw [hget] at hnone
      cases hnone
    · exact contents_remove (by simp) hempty hget

/-- `rename`, of a name in a directory to one in another. A name that is the same is left, and
nothing happens where a directory would come below itself, or to a file, or to a directory with
entries, or a file to a directory. -/
def rename (t : Tree ν β) (a : List (PathStep ν)) (m : ν) (b : List (PathStep ν)) (n : ν) :
    Tree ν β :=
  match t.find (a ++ [.name m]), t.find b with
  | some p, some q => if h : t.Renamable p q n then t.moveInto p q n h else t
  | _, _ => t

/-- `mkdir`, of a path that ends with a name; other paths lead to what exists. -/
def mkdirAt (t : Tree ν β) (path : List (PathStep ν)) : Tree ν β :=
  match path.getLast? with
  | some (.name n) => t.mkdir path.dropLast n
  | _ => t

/-! ## Along names -/

/-- A path of names finds nothing but the place they name. -/
theorem find_names_eq (t : Tree ν β) (q : List ν) :
    t.find (q.map .name) = if t.get q = none then none else some q := by
  split_ifs with hq
  · cases hfind : t.find (q.map .name) with
    | none => rfl
    | some r =>
      obtain ⟨hr, hget⟩ := find_some hfind
      rw [walk_names, List.nil_append] at hr
      rw [hr] at hget
      exact absurd hq hget
  · exact find_names hq

/-- A directory is made in a directory, where there is nothing. -/
theorem get_mkdirAt_names (t : Tree ν β) (q : List ν) (n : ν) (r : List ν) :
    (t.mkdirAt ((q ++ [n]).map .name)).get r =
      if r = q ++ [n] ∧ t.isDir q = true ∧ t.get (q ++ [n]) = none then some .dir
      else t.get r := by
  rw [mkdirAt, List.map_append, List.map_singleton, List.getLast?_concat]
  dsimp only
  rw [List.dropLast_concat, get_mkdir]
  refine if_congr ?_ rfl rfl
  rw [made_eq_some_iff, find_names_eq]
  constructor
  · rintro ⟨p, hp, hdir, hnone, rfl⟩
    split_ifs at hp
    obtain rfl := Option.some.inj hp
    exact ⟨rfl, hdir, hnone⟩
  · rintro ⟨rfl, hdir, hnone⟩
    have hq : t.get q ≠ none := by
      rw [isDir_iff.1 hdir]
      exact Option.some_ne_none _
    exact ⟨q, if_neg hq, hdir, hnone, rfl⟩

/-- A directory that is made holds no file. -/
theorem contents_mkdirAt (t : Tree ν β) (path : List (PathStep ν)) :
    (t.mkdirAt path).contents = t.contents := by
  unfold mkdirAt
  split
  · unfold mkdir
    split
    · rfl
    · split_ifs with h
      · rw [contents_put _ _ h.2]
        exact Multiset.zero_add _
      · rfl
  · rfl

theorem contents_rmdir (t : Tree ν β) (path : List (PathStep ν)) :
    (t.rmdir path).contents = t.contents := by
  unfold rmdir
  split
  · split
    · rename_i p _
      split_ifs with hdir
      · by_cases h : p ≠ [] ∧ t.entries p = []
        · rw [contents_remove h.1 h.2 (isDir_iff.1 hdir)]
          exact (Multiset.zero_add _).symm
        · rw [remove, dif_neg h]
      · rfl
    · rfl
  · rfl

/-- A directory that has no entries is removed. -/
theorem get_rmdir_names (t : Tree ν β) (q : List ν) (n : ν) (r : List ν) :
    (t.rmdir ((q ++ [n]).map .name)).get r =
      if r = q ++ [n] ∧ t.isDir (q ++ [n]) = true ∧ t.entries (q ++ [n]) = [] then none
      else t.get r := by
  have hfind := find_names_eq t (q ++ [n])
  rw [List.map_append, List.map_singleton] at hfind ⊢
  by_cases hdir : t.isDir (q ++ [n]) = true
  · have hget : t.get (q ++ [n]) ≠ none := by
      rw [isDir_iff.1 hdir]
      exact Option.some_ne_none _
    rw [if_neg hget] at hfind
    by_cases hempty : t.entries (q ++ [n]) = []
    · rw [get_rmdir hfind (by simp) hdir hempty]
      simp only [hdir, hempty, and_self, and_true]
    · rw [rmdir, List.getLast?_concat]
      simp only [hfind, hdir, if_true, hempty, and_false, if_false]
      rw [remove, dif_neg fun h => hempty h.2]
  · rw [if_neg fun h => hdir h.2.1, rmdir, List.getLast?_concat]
    dsimp only
    rw [hfind]
    by_cases hget : t.get (q ++ [n]) = none
    · simp only [hget, if_true]
    · simp only [hget, if_false, hdir]
      rfl

theorem rename_names (t : Tree ν β) (a : List ν) (m : ν) (q : List ν) (n : ν) :
    t.rename (a.map .name) m (q.map .name) n =
      if h : t.Renamable (a ++ [m]) q n then t.moveInto (a ++ [m]) q n h else t := by
  have hsrc : t.find (a.map .name ++ [.name m]) =
      if t.get (a ++ [m]) = none then none else some (a ++ [m]) := by
    rw [← find_names_eq, List.map_append, List.map_singleton]
  rw [rename, hsrc, find_names_eq]
  by_cases hp : t.get (a ++ [m]) = none
  · rw [if_pos hp, dif_neg fun h => h.2.1 hp]
  · rw [if_neg hp]
    by_cases hq : t.get q = none
    · have hdir : ¬t.isDir q = true := by
        rw [isDir_iff, hq]
        exact Option.some_ne_none _ ∘ Eq.symm
      rw [if_pos hq, dif_neg fun h => hdir h.2.2.1]
    · rw [if_neg hq]

/-! ## Along a walk -/

/-- The places from which the steps of a walk are taken. -/
def ways : List ν → List (PathStep ν) → List (List ν)
  | _, [] => []
  | p, c :: cs => p :: ways (follow p c) cs

end Tree

end Lib
