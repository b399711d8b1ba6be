import Mathlib.Data.List.AList
import Bewe.Lib.Path

/-!
# A tree of directories and files

Directories and files by their places, with the calls that take a path: what is found along it
(`find`), the names in a directory (`entries`), and taking away and writing what a place holds.
Whatever exists lies in a directory, so that nothing is left behind below what is taken away. A path
finds the same in two trees that agree on the places along it (`find_congr`).
-/

namespace Lib

namespace PathStep

variable {ν : Type*}

/-- The places along a walk, its ends included. -/
def places : List ν → List (PathStep ν) → List (List ν)
  | p, [] => [p]
  | p, c :: cs => p :: places (follow p c) cs

theorem places_concat (p : List ν) (cs : List (PathStep ν)) (c : PathStep ν) :
    places p (cs ++ [c]) = places p cs ++ [walk p (cs ++ [c])] := by
  induction cs generalizing p with
  | nil => rfl
  | cons d cs ih => rw [List.cons_append, places, ih, places, List.cons_append, walk_cons]

/-- A walk along names leads to the place they name, and by no other than those above it. -/
theorem walk_names (p q : List ν) : walk p (q.map name) = p ++ q := by
  induction q generalizing p with
  | nil => rw [List.map_nil, walk_nil, List.append_nil]
  | cons n q ih =>
    rw [List.map_cons, walk_cons, follow, ih, List.append_assoc, List.singleton_append]

@[inherit_doc walk_names]
theorem prefix_of_mem_places {p q r : List ν} (h : r ∈ places p (q.map name)) : r <+: p ++ q := by
  induction q generalizing p with
  | nil =>
    rw [List.map_nil, places, List.mem_singleton] at h
    rw [h]
    exact List.prefix_append _ _
  | cons n q ih =>
    rw [List.map_cons, places] at h
    rcases List.mem_cons.1 h with rfl | h
    · exact List.prefix_append _ _
    · simpa [follow] using ih h

theorem name_eq_of_prefixes {p r : List ν} {n m : ν} (hn : p ++ [n] <+: r) (hm : p ++ [m] <+: r) :
    n = m := by
  have hpre := List.prefix_of_prefix_length_le hn hm (by simp)
  have heq := hpre.eq_of_length (by simp)
  simpa using heq

end PathStep

/-- A directory, or a file with its content. -/
inductive Node (β : Type*)
  | dir
  | file (content : β)
  deriving DecidableEq

/-- The nodes of a tree under their places, in the order in which they are listed. -/
structure Tree (ν β : Type*) [DecidableEq ν] where
  nodes : AList fun _ : List ν => Node β
  root : nodes.lookup [] = some .dir
  closed : ∀ p n, p ++ [n] ∈ nodes → nodes.lookup p = some .dir

namespace Tree

open PathStep

variable {ν β : Type*} [DecidableEq ν]

/-- What is at a place. -/
def get (t : Tree ν β) (p : List ν) : Option (Node β) := t.nodes.lookup p

/-- Whether a place is a directory. -/
def isDir (t : Tree ν β) (p : List ν) : Bool :=
  match t.get p with
  | some .dir => true
  | _ => false

theorem isDir_iff {t : Tree ν β} {p : List ν} : t.isDir p = true ↔ t.get p = some .dir := by
  unfold isDir
  split
  · next h => simp [h]
  · next h => exact ⟨fun hf => Bool.noConfusion hf, fun hd => absurd hd h⟩

theorem isDir_congr {t t' : Tree ν β} {p : List ν} (h : t.get p = t'.get p) :
    t.isDir p = t'.isDir p := by
  rw [isDir, isDir, h]

theorem get_ne_none_iff {t : Tree ν β} {p : List ν} : t.get p ≠ none ↔ p ∈ t.nodes := by
  rw [get, ← Option.isSome_iff_ne_none, AList.lookup_isSome]

theorem isDir_of_get {t : Tree ν β} {p q : List ν} (hq : q ≠ []) (h : t.get (p ++ q) ≠ none) :
    t.isDir p = true := by
  induction q using List.reverseRecOn with
  | nil => exact absurd rfl hq
  | append_singleton q n ih =>
    rw [← List.append_assoc] at h
    have hdir : t.get (p ++ q) = some .dir := t.closed _ _ (get_ne_none_iff.1 h)
    rcases eq_or_ne q [] with rfl | hne
    · rw [List.append_nil] at hdir
      exact isDir_iff.2 hdir
    · exact ih hne (by rw [hdir]; exact Option.some_ne_none _)

theorem isDir_of_prefix {t : Tree ν β} {p r : List ν} (hpre : p <+: r) (hne : r ≠ p)
    (h : t.get r ≠ none) : t.isDir p = true := by
  obtain ⟨q, rfl⟩ := hpre
  exact isDir_of_get (fun hq => hne (by rw [hq, List.append_nil])) h

/-- Nothing but the root. -/
def empty : Tree ν β where
  nodes := AList.singleton [] .dir
  root := by
    rw [← AList.insert_empty]
    exact AList.lookup_insert _
  closed p n h := by
    rw [AList.mem_keys, AList.keys_singleton, List.mem_singleton] at h
    exact absurd h (by simp)

/-! ## Listing -/

/-- The name that a place has in a directory, if it lies there. -/
def entryOf (p q : List ν) : Option ν := if q ≠ [] ∧ q.dropLast = p then q.getLast? else none

theorem entryOf_eq_some_iff {p q : List ν} {n : ν} : entryOf p q = some n ↔ q = p ++ [n] := by
  unfold entryOf
  rcases List.eq_nil_or_concat q with rfl | ⟨q, m, rfl⟩
  · simp
  · rw [List.concat_eq_append, List.dropLast_concat, List.getLast?_concat]
    constructor
    · intro h
      split_ifs at h with hq
      rw [hq.2, Option.some.inj h]
    · intro h
      obtain ⟨hq, hn⟩ := List.append_inj' h rfl
      rw [if_pos ⟨by simp, hq⟩, List.singleton_inj.1 hn]

/-- The names in a directory. -/
def entries (t : Tree ν β) (p : List ν) : List ν := t.nodes.keys.filterMap (entryOf p)

theorem mem_entries {t : Tree ν β} {p : List ν} {n : ν} :
    n ∈ t.entries p ↔ t.get (p ++ [n]) ≠ none := by
  rw [entries, List.mem_filterMap, get_ne_none_iff, AList.mem_keys]
  constructor
  · rintro ⟨q, hq, hn⟩
    rwa [← entryOf_eq_some_iff.1 hn]
  · exact fun h => ⟨_, h, entryOf_eq_some_iff.2 rfl⟩

theorem nodup_entries (t : Tree ν β) (p : List ν) : (t.entries p).Nodup := by
  refine List.Nodup.filterMap (fun q r n hq hr => ?_) t.nodes.keys_nodup
  rw [Option.mem_def, entryOf_eq_some_iff] at hq hr
  rw [hq, hr]

/-- The length of the longest place. -/
def height (t : Tree ν β) : ℕ := (t.nodes.keys.map List.length).foldr max 0

theorem length_le_height {t : Tree ν β} {p : List ν} (h : t.get p ≠ none) :
    p.length ≤ t.height := by
  have hmem : p.length ∈ t.nodes.keys.map List.length :=
    List.mem_map_of_mem (AList.mem_keys.1 (get_ne_none_iff.1 h))
  unfold height
  generalize t.nodes.keys.map List.length = ks at hmem
  induction ks with
  | nil => exact absurd hmem List.not_mem_nil
  | cons k ks ih =>
    rw [List.foldr_cons]
    rcases List.mem_cons.1 hmem with rfl | hk
    · exact le_max_left _ _
    · exact (ih hk).trans (le_max_right _ _)

/-! ## Paths -/

/-- What a path leads to from a place, through directories only. -/
def findFrom (t : Tree ν β) : List ν → List (PathStep ν) → Option (List ν)
  | p, [] => if (t.get p).isSome then some p else none
  | p, c :: cs => if t.isDir p then findFrom t (follow p c) cs else none

/-- What a path leads to. -/
def find (t : Tree ν β) (path : List (PathStep ν)) : Option (List ν) := t.findFrom [] path

theorem findFrom_congr {t t' : Tree ν β} {p : List ν} {path : List (PathStep ν)}
    (h : ∀ q ∈ places p path, t.get q = t'.get q) : t.findFrom p path = t'.findFrom p path := by
  induction path generalizing p with
  | nil => rw [findFrom, findFrom, h p (by simp [places])]
  | cons c cs ih =>
    rw [places, List.forall_mem_cons] at h
    rw [findFrom, findFrom, isDir_congr h.1, ih h.2]

theorem find_congr {t t' : Tree ν β} {path : List (PathStep ν)}
    (h : ∀ q ∈ places [] path, t.get q = t'.get q) : t.find path = t'.find path :=
  findFrom_congr h

theorem findFrom_some {t : Tree ν β} {p q : List ν} {path : List (PathStep ν)}
    (h : t.findFrom p path = some q) :
    q = walk p path ∧ t.get q ≠ none ∧ ∀ r ∈ places p path, r ≠ q → t.isDir r = true := by
  induction path generalizing p with
  | nil =>
    rw [findFrom] at h
    split_ifs at h with hp
    obtain rfl := Option.some.inj h
    refine ⟨rfl, Option.isSome_iff_ne_none.1 hp, fun r hr hne => ?_⟩
    rw [places, List.mem_singleton] at hr
    exact absurd hr hne
  | cons c cs ih =>
    rw [findFrom] at h
    split_ifs at h with hdir
    obtain ⟨hq, hget, hdirs⟩ := ih h
    refine ⟨hq, hget, fun r hr hne => ?_⟩
    rcases List.mem_cons.1 hr with rfl | hr
    · exact hdir
    · exact hdirs r hr hne

theorem find_some {t : Tree ν β} {q : List ν} {path : List (PathStep ν)}
    (h : t.find path = some q) : q = walk [] path ∧ t.get q ≠ none :=
  ⟨(findFrom_some h).1, (findFrom_some h).2.1⟩

theorem findFrom_concat (t : Tree ν β) (p : List ν) (path : List (PathStep ν)) (c : PathStep ν) :
    t.findFrom p (path ++ [c]) = (t.findFrom p path).bind fun q =>
      if t.isDir q then t.findFrom (follow q c) [] else none := by
  induction path generalizing p with
  | nil =>
    rw [List.nil_append, findFrom, findFrom]
    by_cases hdir : t.isDir p = true
    · simp [hdir, isDir_iff.1 hdir]
    · rw [if_neg hdir]
      split_ifs
      · simp [hdir]
      · rfl
  | cons d cs ih =>
    rw [List.cons_append, findFrom, findFrom, ih]
    split_ifs
    · rfl
    · rfl

theorem find_name {t : Tree ν β} {q : List ν} {path : List (PathStep ν)} (n : ν)
    (h : t.find path = some q) (hn : t.get (q ++ [n]) ≠ none) :
    t.find (path ++ [.name n]) = some (q ++ [n]) := by
  have hdir : t.isDir q = true := isDir_of_get (List.cons_ne_nil _ _) hn
  rw [find] at h
  rw [find, findFrom_concat, h, Option.bind_some, if_pos hdir, findFrom, follow,
    if_pos (Option.isSome_iff_ne_none.2 hn)]

theorem find_concat_none {t : Tree ν β} {path : List (PathStep ν)} (c : PathStep ν)
    (h : t.find path = none) : t.find (path ++ [c]) = none := by
  rw [find] at h
  rw [find, findFrom_concat, h, Option.bind_none]

theorem find_names {t : Tree ν β} {q : List ν} (h : t.get q ≠ none) :
    t.find (q.map .name) = some q := by
  induction q using List.reverseRecOn with
  | nil => rw [List.map_nil, find, findFrom, if_pos (Option.isSome_iff_ne_none.2 h)]
  | append_singleton q n ih =>
    have hdir : t.get q = some .dir :=
      isDir_iff.1 (isDir_of_get (List.cons_ne_nil _ _) h)
    rw [List.map_append, List.map_singleton]
    exact find_name n (ih (by rw [hdir]; exact Option.some_ne_none _)) h

/-! ## Taking away -/

/-- Taking away what is at a place; nothing happens to the root, and to a directory that has
something in it. -/
def remove (t : Tree ν β) (p : List ν) : Tree ν β :=
  if h : p ≠ [] ∧ t.entries p = [] then
    { nodes := t.nodes.erase p
      root := by
        rw [AList.lookup_erase_ne (Ne.symm h.1)]
        exact t.root
      closed := by
        intro q n hq
        rw [AList.mem_erase] at hq
        have hne : q ≠ p := by
          rintro rfl
          have hn : n ∈ t.entries q := mem_entries.2 (get_ne_none_iff.2 hq.2)
          rw [h.2] at hn
          exact List.not_mem_nil hn
        rw [AList.lookup_erase_ne hne]
        exact t.closed q n hq.2 }
  else t

theorem get_remove {t : Tree ν β} {p : List ν} (hp : p ≠ []) (h : t.entries p = [])
    (r : List ν) : (t.remove p).get r = if r = p then none else t.get r := by
  rw [remove, dif_pos ⟨hp, h⟩, get]
  split_ifs with hr
  · rw [hr]
    exact AList.lookup_erase _ _
  · exact AList.lookup_erase_ne hr

/-- `unlink`. -/
def unlink (t : Tree ν β) (path : List (PathStep ν)) : Tree ν β :=
  match t.find path with
  | some p => if t.isDir p then t else t.remove p
  | none => t

/-- `rmdir`, which asks for a name at the end of the path. -/
def rmdir (t : Tree ν β) (path : List (PathStep ν)) : Tree ν β :=
  match path.getLast? with
  | some (.name _) =>
    match t.find path with
    | some p => if t.isDir p then t.remove p else t
    | none => t
  | _ => t

theorem entries_of_not_isDir {t : Tree ν β} {p : List ν} (h : t.isDir p = false) :
    t.entries p = [] := by
  refine List.eq_nil_iff_forall_not_mem.2 fun n hn => ?_
  rw [isDir_of_get (List.cons_ne_nil _ _) (mem_entries.1 hn)] at h
  exact Bool.noConfusion h

theorem get_unlink {t : Tree ν β} {path : List (PathStep ν)} {p : List ν}
    (h : t.find path = some p) (hp : p ≠ []) (hfile : t.isDir p = false) (r : List ν) :
    (t.unlink path).get r = if r = p then none else t.get r := by
  rw [unlink, h]
  simp only [hfile, Bool.false_eq_true, if_false]
  exact get_remove hp (entries_of_not_isDir hfile) r

theorem get_rmdir {t : Tree ν β} {path : List (PathStep ν)} {p : List ν} {n : ν}
    (h : t.find (path ++ [.name n]) = some p) (hp : p ≠ []) (hdir : t.isDir p = true)
    (hempty : t.entries p = []) (r : List ν) :
    (t.rmdir (path ++ [.name n])).get r = if r = p then none else t.get r := by
  rw [rmdir, List.getLast?_concat]
  simp only [h, hdir, if_true]
  exact get_remove hp hempty r

/-! ## Writing -/

/-- A node under a name, in place of what has it. -/
def put (t : Tree ν β) (p : List ν) (n : ν) (x : Node β) (hp : t.get p = some .dir)
    (hn : t.get (p ++ [n]) ≠ some .dir) : Tree ν β where
  nodes := t.nodes.insert (p ++ [n]) x
  root := by
    rw [AList.lookup_insert_ne (by simp)]
    exact t.root
  closed := by
    intro q m hq
    rw [AList.mem_insert] at hq
    have hdir : t.get q = some .dir := by
      rcases hq with hq | hq
      · rw [(List.append_inj' hq rfl).1]
        exact hp
      · exact t.closed q m hq
    have hne : q ≠ p ++ [n] := fun heq => hn (heq ▸ hdir)
    rw [AList.lookup_insert_ne hne]
    exact hdir

theorem get_put {t : Tree ν β} {p : List ν} {n : ν} {x : Node β} (hp : t.get p = some .dir)
    (hn : t.get (p ++ [n]) ≠ some .dir) (r : List ν) :
    (t.put p n x hp hn).get r = if r = p ++ [n] then some x else t.get r := by
  split_ifs with hr
  · rw [hr]
    exact AList.lookup_insert _
  · exact AList.lookup_insert_ne hr

theorem filterMap_erase {α γ : Type*} [DecidableEq α] {f : α → Option γ} {a : α} (h : f a = none)
    (l : List α) : (l.erase a).filterMap f = l.filterMap f := by
  induction l with
  | nil => rfl
  | cons b l ih =>
    rw [List.erase_cons]
    split_ifs with hb
    · rw [List.filterMap_cons, eq_of_beq hb, h]
    · rw [List.filterMap_cons, List.filterMap_cons, ih]

theorem entries_put_of_ne {t : Tree ν β} {p q : List ν} {n : ν} {x : Node β}
    (hp : t.get p = some .dir) (hn : t.get (p ++ [n]) ≠ some .dir) (hq : q ≠ p) :
    (t.put p n x hp hn).entries q = t.entries q := by
  have hnone : entryOf q (p ++ [n]) = none := by
    rw [entryOf, List.dropLast_concat]
    exact if_neg fun h => hq h.2.symm
  rw [entries, put, AList.keys_insert, List.filterMap_cons_none hnone]
  exact filterMap_erase hnone _

/-- Opening a file for writing and giving it a content; a directory cannot be opened. -/
def write (t : Tree ν β) (path : List (PathStep ν)) (n : ν) (b : β) : Tree ν β :=
  match t.find path with
  | none => t
  | some p =>
    if h : t.isDir p = true ∧ t.isDir (p ++ [n]) = false then
      t.put p n (.file b) (isDir_iff.1 h.1) fun hd => by
        rw [isDir_iff.2 hd] at h
        exact Bool.noConfusion h.2
    else t

/-- `mkdir`; nothing happens if there is something under the name. -/
def mkdir (t : Tree ν β) (path : List (PathStep ν)) (n : ν) : Tree ν β :=
  match t.find path with
  | none => t
  | some p =>
    if h : t.isDir p = true ∧ t.get (p ++ [n]) = none then
      t.put p n .dir (isDir_iff.1 h.1) fun hd => by
        rw [h.2] at hd
        cases hd
    else t

/-- The place of the file that is written. -/
def written (t : Tree ν β) (path : List (PathStep ν)) (n : ν) : Option (List ν) :=
  (t.find path).bind fun p =>
    if t.isDir p = true ∧ t.isDir (p ++ [n]) = false then some (p ++ [n]) else none

theorem get_write (t : Tree ν β) (path : List (PathStep ν)) (n : ν) (b : β) (r : List ν) :
    (t.write path n b).get r = if t.written path n = some r then some (.file b) else t.get r := by
  unfold write written
  cases hfind : t.find path with
  | none => simp
  | some p =>
    rw [Option.bind_some]
    by_cases h : t.isDir p = true ∧ t.isDir (p ++ [n]) = false
    · rw [if_pos h]
      simp only [dif_pos h, Option.some.injEq, get_put, @eq_comm _ (p ++ [n])]
    · rw [if_neg h]
      simp only [dif_neg h]
      rfl

theorem not_isDir_of_written {t : Tree ν β} {path : List (PathStep ν)} {n : ν} {r : List ν}
    (h : t.written path n = some r) : t.isDir r = false := by
  obtain ⟨p, -, hp⟩ := Option.bind_eq_some_iff.1 h
  split_ifs at hp with hdir
  rw [← Option.some.inj hp]
  exact hdir.2

/-- The place that is written is that of a name in the directory to which the path leads. -/
theorem written_eq_some_iff {t : Tree ν β} {path : List (PathStep ν)} {n : ν} {r : List ν} :
    t.written path n = some r ↔ ∃ p, t.find path = some p ∧ t.isDir p = true ∧
      t.isDir (p ++ [n]) = false ∧ r = p ++ [n] := by
  unfold written
  rw [Option.bind_eq_some_iff]
  constructor
  · rintro ⟨p, hp, hr⟩
    split_ifs at hr with hdir
    exact ⟨p, hp, hdir.1, hdir.2, (Option.some.inj hr).symm⟩
  · rintro ⟨p, hp, hdir, hfile, rfl⟩
    exact ⟨p, hp, if_pos ⟨hdir, hfile⟩⟩

theorem written_congr {t t' : Tree ν β} (h : ∀ r, t.get r = t'.get r) (path : List (PathStep ν))
    (n : ν) : t.written path n = t'.written path n := by
  rw [written, written, find_congr fun q _ => h q]
  congr 1
  funext p
  rw [isDir_congr (h p), isDir_congr (h _)]

theorem entries_write_of_ne {t : Tree ν β} {path : List (PathStep ν)} {n : ν} {b : β} {q : List ν}
    (h : ∀ p, t.find path = some p → q ≠ p) : (t.write path n b).entries q = t.entries q := by
  unfold write
  cases hfind : t.find path with
  | none => rfl
  | some p =>
    dsimp only
    split_ifs
    · exact entries_put_of_ne _ _ (h p hfind)
    · rfl

/-- The place of the directory that is made. -/
def made (t : Tree ν β) (path : List (PathStep ν)) (n : ν) : Option (List ν) :=
  (t.find path).bind fun p =>
    if t.isDir p = true ∧ t.get (p ++ [n]) = none then some (p ++ [n]) else none

theorem get_mkdir (t : Tree ν β) (path : List (PathStep ν)) (n : ν) (r : List ν) :
    (t.mkdir path n).get r = if t.made path n = some r then some .dir else t.get r := by
  unfold mkdir made
  cases hfind : t.find path with
  | none => simp
  | some p =>
    rw [Option.bind_some]
    by_cases h : t.isDir p = true ∧ t.get (p ++ [n]) = none
    · rw [if_pos h]
      simp only [dif_pos h, Option.some.injEq, get_put, @eq_comm _ (p ++ [n])]
    · rw [if_neg h]
      simp only [dif_neg h]
      rfl

theorem made_eq_some_iff {t : Tree ν β} {path : List (PathStep ν)} {n : ν} {r : List ν} :
    t.made path n = some r ↔ ∃ p, t.find path = some p ∧ t.isDir p = true ∧
      t.get (p ++ [n]) = none ∧ r = p ++ [n] := by
  unfold made
  rw [Option.bind_eq_some_iff]
  constructor
  · rintro ⟨p, hp, hr⟩
    split_ifs at hr with hdir
    exact ⟨p, hp, hdir.1, hdir.2, (Option.some.inj hr).symm⟩
  · rintro ⟨p, hp, hdir, hnone, rfl⟩
    exact ⟨p, hp, if_pos ⟨hdir, hnone⟩⟩

theorem made_congr {t t' : Tree ν β} (h : ∀ r, t.get r = t'.get r) (path : List (PathStep ν))
    (n : ν) : t.made path n = t'.made path n := by
  rw [made, made, find_congr fun q _ => h q]
  congr 1
  funext p
  rw [isDir_congr (h p), h]

theorem entries_mkdir_of_ne {t : Tree ν β} {path : List (PathStep ν)} {n : ν} {q : List ν}
    (h : ∀ p, t.find path = some p → q ≠ p) : (t.mkdir path n).entries q = t.entries q := by
  unfold mkdir
  cases hfind : t.find path with
  | none => rfl
  | some p =>
    dsimp only
    split_ifs
    · exact entries_put_of_ne _ _ (h p hfind)
    · rfl

end Tree

end Lib
