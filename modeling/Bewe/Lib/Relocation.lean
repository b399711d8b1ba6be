import Bewe.Lib.TreeRename

/-!
# Directories that are given up for others

Below a directory `root` there are directories with old names. What an entry `c` of an old directory
`y` holds belongs in `y/c` below the directory of its home, wherever this is. The entries that are not
skipped, and that move at all, are moved one after another, an old directory is removed when nothing
is left in it, and an entry stays where its move is refused.

As long as no entry goes into an old directory, or into where another goes, the moves do not meet
(`Apart`). So what a run leaves follows from what it finds (`Partway`), a second run finds nothing to
do (`runWith_run`), and the files and directories that lie in their homes stay unless an entry of an
old directory is taken for what it is not (`settles_iff`).
-/

namespace Lib

open PathStep

/-- Which names are old, which entries of old directories are not skipped, which of these move, and
the place of the directory of an entry's home. -/
structure Relocation (ν : Type*) where
  root : List ν
  old : ν → Bool
  listed : ν → Bool
  moves : ν → ν → Bool
  homeDir : ν → ν → List ν

namespace Relocation

/-! ## Places -/

section

variable {ν : Type*} (L : Relocation ν)

/-- The directory of an old name. -/
def oldDir (y : ν) : List ν := L.root ++ [y]

/-- The place of an entry. -/
def src (y c : ν) : List ν := L.oldDir y ++ [c]

/-- The directory in an entry's home that replaces the old directory. -/
def groupDir (y c : ν) : List ν := L.homeDir y c ++ [y]

/-- Where an entry belongs. -/
def dst (y c : ν) : List ν := L.groupDir y c ++ [c]

/-- An entry belongs neither in an old directory nor above all of them. -/
structure Clear (y c : ν) : Prop where
  outside : ∀ z, L.old z = true → ¬L.oldDir z <+: L.dst y c
  below : ¬L.dst y c <+: L.root

variable {L} {y z c d : ν} {r : List ν}

theorem oldDir_prefix_src : L.oldDir y <+: L.src y c := List.prefix_append _ _

theorem homeDir_prefix_groupDir : L.homeDir y c <+: L.groupDir y c := List.prefix_append _ _

theorem groupDir_prefix_dst : L.groupDir y c <+: L.dst y c := List.prefix_append _ _

theorem homeDir_prefix_dst : L.homeDir y c <+: L.dst y c :=
  homeDir_prefix_groupDir.trans groupDir_prefix_dst

@[simp] theorem length_oldDir : (L.oldDir y).length = L.root.length + 1 := by simp [oldDir]

@[simp] theorem length_src : (L.src y c).length = L.root.length + 2 := by simp [src]

@[simp] theorem length_groupDir : (L.groupDir y c).length = (L.homeDir y c).length + 1 := by
  simp [groupDir]

@[simp] theorem length_dst : (L.dst y c).length = (L.homeDir y c).length + 2 := by simp [dst]

theorem groupDir_ne_homeDir : L.groupDir y c ≠ L.homeDir y c := fun h => by
  simpa using congrArg List.length h

/-- What is at or below the place where an entry belongs is not one of its directories. -/
theorem ne_dirs_of_below (h : L.dst y c <+: r) : r ≠ L.homeDir y c ∧ r ≠ L.groupDir y c := by
  have hle := h.length_le
  constructor
  · rintro rfl
    rw [length_dst] at hle
    omega
  · rintro rfl
    rw [length_dst, length_groupDir] at hle
    omega

/-- The entry that lies above a place. -/
theorem src_inj (h : L.src y c <+: r) (h' : L.src z d <+: r) : y = z ∧ c = d := by
  have hy : y = z :=
    name_eq_of_prefixes (oldDir_prefix_src.trans h) (oldDir_prefix_src.trans h')
  subst hy
  exact ⟨rfl, name_eq_of_prefixes h h'⟩

/-- What lies in an old directory does not lie where an entry belongs. -/
theorem Clear.not_below_dst (h : L.Clear y c) (hz : L.old z = true) (hr : L.oldDir z <+: r) :
    ¬L.dst y c <+: r := by
  intro hdst
  rcases List.prefix_or_prefix_of_prefix hr hdst with hpre | hpre
  · exact h.outside z hz hpre
  · rcases List.prefix_concat_iff.1 hpre with heq | hpre
    · exact h.outside z hz (heq ▸ List.prefix_rfl)
    · exact h.below hpre

/-- Nor is it on the way there. -/
theorem Clear.ne_dirs (h : L.Clear y c) (hz : L.old z = true) (hr : L.oldDir z <+: r) :
    r ≠ L.homeDir y c ∧ r ≠ L.groupDir y c := by
  constructor
  · rintro rfl
    exact h.outside z hz (hr.trans homeDir_prefix_dst)
  · rintro rfl
    exact h.outside z hz (hr.trans groupDir_prefix_dst)

end

/-! ## Moving -/

variable {ν β : Type*} [DecidableEq ν] (L : Relocation ν)

/-- The tree with the directories in which an entry belongs. -/
def made (t : Tree ν β) (y c : ν) : Tree ν β :=
  (t.mkdirAt ((L.homeDir y c).map .name)).mkdirAt ((L.groupDir y c).map .name)

/-- An entry is moved. -/
def moveEntry (y : ν) (t : Tree ν β) (c : ν) : Tree ν β :=
  (L.made t y c).rename ((L.oldDir y).map .name) c ((L.groupDir y c).map .name) c

/-- The turn of an entry that is not skipped. -/
def turn (y : ν) (t : Tree ν β) (c : ν) : Tree ν β := if L.moves y c then L.moveEntry y t c else t

/-- The entries of an old directory have their turns, in some way, and it is removed if it is empty
then. -/
def moveAllWith (move : ν → Tree ν β → ν → Tree ν β) (t : Tree ν β) (y : ν) : Tree ν β :=
  if t.isDir (L.oldDir y) then
    (((t.entries (L.oldDir y)).filter L.listed).foldl (move y) t).rmdir ((L.oldDir y).map .name)
  else t

/-- All old directories are gone through. -/
def runWith (move : ν → Tree ν β → ν → Tree ν β) (t : Tree ν β) : Tree ν β :=
  ((t.entries L.root).filter L.old).foldl (L.moveAllWith move) t

/-- All old directories are gone through, and their entries are moved. -/
def run (t : Tree ν β) : Tree ν β := L.runWith L.turn t

/-- What is found in an old directory and not skipped. -/
def Found (t : Tree ν β) (y c : ν) : Prop :=
  L.old y = true ∧ L.listed c = true ∧ t.get (L.src y c) ≠ none

/-- An entry that is to be moved. -/
def Entry (t : Tree ν β) (y c : ν) : Prop := L.Found t y c ∧ L.moves y c = true

/-- The directory of an entry's home can be made, if it is not there. -/
def Reached (t : Tree ν β) (y c : ν) : Prop :=
  t.get (L.homeDir y c) = none → t.isDir (L.homeDir y c).dropLast = true

/-- An entry that is not kept from moving by what it is, or by where it belongs. -/
structure Ready (t : Tree ν β) (y c : ν) : Prop where
  entry : L.Entry t y c
  clear : L.Clear y c
  reached : L.Reached t y c

/-- Moves do not meet: all entries belong outside of the old directories and of where others belong,
and the directories of their homes can be made. -/
structure Apart (t : Tree ν β) : Prop where
  ready : ∀ y c, L.Entry t y c → L.Ready t y c
  flat : ∀ y c z d, L.Entry t y c → L.Entry t z d → L.dst y c <+: L.dst z d → y = z ∧ c = d

/-- A place has something other than a directory. -/
def Taken (t : Tree ν β) (p : List ν) : Prop := t.get p ≠ none ∧ t.isDir p = false

instance (t : Tree ν β) (p : List ν) : Decidable (Taken t p) := inferInstanceAs (Decidable (_ ∧ _))

/-- The system refuses to move an entry: a directory cannot be made, or what has its name does not
give way to it. -/
def Refused (t : Tree ν β) (y c : ν) : Prop :=
  Taken t (L.homeDir y c) ∨ Taken t (L.groupDir y c) ∨
    t.get (L.dst y c) ≠ none ∧
      ¬(t.isDir (L.src y c) = t.isDir (L.dst y c) ∧ t.entries (L.dst y c) = [])

/-- An entry and what has its name are files. -/
def Replaces (t : Tree ν β) (y c : ν) : Prop :=
  t.isDir (L.src y c) = false ∧ Taken t (L.dst y c)

variable {L} {t t' : Tree ν β} {y z c d : ν} {r : List ν}

/-! ## One entry -/

theorem taken_congr {p : List ν} (h : t.get p = t'.get p) : Taken t p ↔ Taken t' p := by
  rw [Taken, Taken, h, Tree.isDir_congr h]

theorem not_taken_iff {p : List ν} : ¬Taken t p ↔ t.get p = none ∨ t.isDir p = true := by
  rw [Taken, not_and_or, not_not, Bool.not_eq_false]

/-- Nothing lies in what is not a directory. -/
theorem get_eq_none_of_not_isDir {p : List ν} (h : t.isDir p = false) (n : ν) :
    t.get (p ++ [n]) = none := by
  by_contra hne
  have hdir := Tree.isDir_of_get (List.cons_ne_nil _ _) hne
  rw [h] at hdir
  cases hdir

/-- A directory is made where there is nothing. -/
theorem get_mkdirAt_place {p : List ν} (hp : t.get p = none → t.isDir p.dropLast = true) (r : List ν) :
    (t.mkdirAt (p.map .name)).get r = if r = p ∧ t.get p = none then some .dir else t.get r := by
  rcases List.eq_nil_or_concat p with rfl | ⟨q, n, rfl⟩
  · have hroot : t.get [] ≠ none := by
      rw [Tree.get, t.root]
      exact Option.some_ne_none _
    rw [if_neg fun h => hroot h.2]
    rfl
  · rw [List.concat_eq_append] at hp ⊢
    rw [List.dropLast_concat] at hp
    rw [Tree.get_mkdirAt_names]
    exact if_congr (and_congr_right fun _ => and_iff_right_of_imp hp) rfl rfl

/-- The directories of an entry are made where there is nothing. -/
theorem get_made (hway : L.Reached t y c) (r : List ν) :
    (L.made t y c).get r =
      if r = L.homeDir y c ∧ t.get (L.homeDir y c) = none ∨
          r = L.groupDir y c ∧ t.get (L.groupDir y c) = none ∧ ¬Taken t (L.homeDir y c) then
        some .dir
      else t.get r := by
  have hhome := get_mkdirAt_place hway
  have hdir : (t.mkdirAt ((L.homeDir y c).map .name)).isDir (L.homeDir y c) = true ↔
      ¬Taken t (L.homeDir y c) := by
    rw [Tree.isDir_iff, hhome, not_taken_iff, Tree.isDir_iff]
    by_cases hnone : t.get (L.homeDir y c) = none
    · simp [hnone]
    · simp [hnone]
  have hgroup := Tree.get_mkdirAt_names (t.mkdirAt ((L.homeDir y c).map .name)) (L.homeDir y c) y r
  rw [show L.homeDir y c ++ [y] = L.groupDir y c from rfl] at hgroup
  have hkept : (t.mkdirAt ((L.homeDir y c).map .name)).get (L.groupDir y c) =
      t.get (L.groupDir y c) := by rw [hhome, if_neg fun h => groupDir_ne_homeDir h.1]
  rw [made, hgroup, hkept]
  simp only [hdir]
  rw [hhome]
  by_cases h1 : r = L.homeDir y c ∧ t.get (L.homeDir y c) = none
  · rw [if_pos h1, ite_self, if_pos (.inl h1)]
  · rw [if_neg h1]
    refine if_congr ?_ rfl rfl
    constructor
    · rintro ⟨hr, htaken, hnone⟩
      exact .inr ⟨hr, hnone, htaken⟩
    · rintro (h | ⟨hr, hnone, htaken⟩)
      · exact absurd h h1
      · exact ⟨hr, htaken, hnone⟩

/-- What is there stays when the directories are made. -/
theorem get_made_of_get (hway : L.Reached t y c) (hr : t.get r ≠ none) :
    (L.made t y c).get r = t.get r := by
  rw [get_made hway]
  refine if_neg ?_
  rintro (⟨rfl, hnone⟩ | ⟨rfl, hnone, -⟩)
  · exact hr hnone
  · exact hr hnone

theorem get_made_of_ne (hway : L.Reached t y c) (hne : r ≠ L.homeDir y c ∧ r ≠ L.groupDir y c) :
    (L.made t y c).get r = t.get r := by
  rw [get_made hway]
  refine if_neg ?_
  rintro (⟨hr, -⟩ | ⟨hr, -⟩)
  · exact hne.1 hr
  · exact hne.2 hr

/-- An entry moves just if it is not refused. -/
theorem renamable_iff (h : L.Ready t y c) :
    (L.made t y c).Renamable (L.src y c) (L.groupDir y c) c ↔ ¬L.Refused t y c := by
  have hsrc : (L.made t y c).get (L.src y c) = t.get (L.src y c) :=
    get_made_of_get h.reached h.entry.1.2.2
  have hdst : (L.made t y c).get (L.dst y c) = t.get (L.dst y c) :=
    get_made_of_ne h.reached (ne_dirs_of_below List.prefix_rfl)
  have hentries : (L.made t y c).entries (L.dst y c) = [] ↔ t.entries (L.dst y c) = [] := by
    rw [Tree.entries_eq_nil_iff, Tree.entries_eq_nil_iff]
    refine forall_congr' fun n => ?_
    rw [get_made_of_ne h.reached (ne_dirs_of_below (List.prefix_append _ _))]
  have hgroup : (L.made t y c).isDir (L.groupDir y c) = true ↔
      ¬Taken t (L.homeDir y c) ∧ ¬Taken t (L.groupDir y c) := by
    rw [Tree.isDir_iff, get_made h.reached]
    have hne := groupDir_ne_homeDir (L := L) (y := y) (c := c)
    by_cases hhome : Taken t (L.homeDir y c)
    · have hnone : t.get (L.groupDir y c) = none := get_eq_none_of_not_isDir hhome.2 y
      simp [hne, hhome, hnone]
    · rw [not_taken_iff (p := L.groupDir y c), Tree.isDir_iff]
      by_cases hnone : t.get (L.groupDir y c) = none
      · simp [hhome, hnone]
      · simp [hne, hhome, hnone]
  have hprefix : ¬L.src y c <+: L.groupDir y c := fun hpre =>
    h.clear.outside y h.entry.1.1 ((oldDir_prefix_src.trans hpre).trans groupDir_prefix_dst)
  have hother : L.dst y c ≠ L.src y c := fun heq =>
    h.clear.outside y h.entry.1.1 (heq ▸ oldDir_prefix_src)
  have hne : L.src y c ≠ [] := by simp [src]
  unfold Tree.Renamable Refused
  rw [hsrc, hgroup, show L.groupDir y c ++ [c] = L.dst y c from rfl, hdst, hentries,
    Tree.isDir_congr hsrc, Tree.isDir_congr hdst]
  rw [not_or, not_or, not_and_or, not_not, not_not]
  constructor
  · rintro ⟨-, -, ⟨hhome, hgroup⟩, -, -, hdst⟩
    exact ⟨hhome, hgroup, hdst⟩
  · rintro ⟨hhome, hgroup, hdst⟩
    exact ⟨hne, h.entry.1.2.2, ⟨hhome, hgroup⟩, hother, hprefix, hdst⟩

theorem moveEntry_eq (y c : ν) (t : Tree ν β) :
    L.moveEntry y t c =
      if h : (L.made t y c).Renamable (L.src y c) (L.groupDir y c) c then
        (L.made t y c).moveInto (L.src y c) (L.groupDir y c) c h
      else L.made t y c := Tree.rename_names _ _ _ _ _

/-- A refused move only makes directories. -/
theorem moveEntry_of_refused (h : L.Ready t y c) (hr : L.Refused t y c) :
    L.moveEntry y t c = L.made t y c := by
  rw [moveEntry_eq, dif_neg fun hren => (renamable_iff h).1 hren hr]

theorem get_moveEntry (h : L.Ready t y c) (hr : ¬L.Refused t y c) (r : List ν) :
    (L.moveEntry y t c).get r =
      if L.dst y c <+: r then t.get (L.src y c ++ r.drop (L.dst y c).length)
      else if L.src y c <+: r then none else (L.made t y c).get r := by
  have hren := (renamable_iff h).2 hr
  have hbelow : ∀ s, (L.made t y c).get (L.src y c ++ s) = t.get (L.src y c ++ s) := fun s =>
    get_made_of_ne h.reached
      (h.clear.ne_dirs h.entry.1.1 (oldDir_prefix_src.trans (List.prefix_append _ _)))
  rw [moveEntry_eq, dif_pos hren, Tree.get_moveInto, ← hbelow]
  rfl

/-- Places other than those of the entry and where it goes stay, or directories are made there. -/
theorem get_moveEntry_of_apart (h : L.Ready t y c) (hsrc : ¬L.src y c <+: r)
    (hdst : ¬L.dst y c <+: r) :
    (L.moveEntry y t c).get r = t.get r ∨
      (r = L.homeDir y c ∨ r = L.groupDir y c) ∧ t.get r = none ∧
        (L.moveEntry y t c).get r = some .dir := by
  have hmade : (L.moveEntry y t c).get r = (L.made t y c).get r := by
    by_cases hr : L.Refused t y c
    · rw [moveEntry_of_refused h hr]
    · rw [get_moveEntry h hr, if_neg hdst, if_neg hsrc]
  rw [hmade, get_made h.reached]
  split_ifs with hnew
  · right
    rcases hnew with ⟨rfl, hnone⟩ | ⟨rfl, hnone, -⟩
    · exact ⟨.inl rfl, hnone, rfl⟩
    · exact ⟨.inr rfl, hnone, rfl⟩
  · exact .inl rfl

/-- What is below the entry, or where it goes, stays if the move is refused. -/
theorem get_moveEntry_of_refused (h : L.Ready t y c) (hr : L.Refused t y c)
    (hpre : L.src y c <+: r ∨ L.dst y c <+: r) : (L.moveEntry y t c).get r = t.get r := by
  rw [moveEntry_of_refused h hr]
  rcases hpre with hpre | hpre
  · exact get_made_of_ne h.reached (h.clear.ne_dirs h.entry.1.1 (oldDir_prefix_src.trans hpre))
  · exact get_made_of_ne h.reached (ne_dirs_of_below hpre)

theorem contents_made (t : Tree ν β) (y c : ν) : (L.made t y c).contents = t.contents := by
  rw [made, Tree.contents_mkdirAt, Tree.contents_mkdirAt]

/-- The only file that a move can lose is the one that the entry replaces. -/
theorem contents_moveEntry (h : L.Ready t y c) (hr : ¬L.Refused t y c) :
    t.contents = Multiset.ofList ((t.get (L.dst y c)).bind Tree.content?).toList +
      (L.moveEntry y t c).contents := by
  have hdst : (L.made t y c).get (L.dst y c) = t.get (L.dst y c) :=
    get_made_of_ne h.reached (ne_dirs_of_below List.prefix_rfl)
  have hren := (renamable_iff h).2 hr
  rw [moveEntry_eq, dif_pos hren, ← contents_made t y c, ← hdst]
  exact Tree.contents_moveInto hren

/-- A directory that an entry replaces has nothing in it. -/
theorem content_of_not_replaces (hr : ¬L.Refused t y c) (hrep : ¬L.Replaces t y c) :
    (t.get (L.dst y c)).bind Tree.content? = none := by
  rw [Refused, not_or, not_or, not_and_not_right] at hr
  cases hget : t.get (L.dst y c) with
  | none => rfl
  | some x =>
    have hsome : t.get (L.dst y c) ≠ none := by
      rw [hget]
      exact Option.some_ne_none _
    obtain ⟨hdir, -⟩ := hr.2.2 hsome
    cases x with
    | dir => rfl
    | file b =>
      have hfile : t.isDir (L.dst y c) = false := by rw [Tree.isDir, hget]
      exact absurd ⟨hdir.trans hfile, hsome, hfile⟩ hrep

theorem content_of_replaces (hrep : L.Replaces t y c) :
    ∃ b, (t.get (L.dst y c)).bind Tree.content? = some b := by
  obtain ⟨-, hsome, hfile⟩ := hrep
  cases hget : t.get (L.dst y c) with
  | none => exact absurd hget hsome
  | some x =>
    cases x with
    | dir =>
      rw [Tree.isDir, hget] at hfile
      cases hfile
    | file b => exact ⟨b, rfl⟩

/-! ## A run -/

/-- A place is as it was, or a directory has been made there. -/
def Kept (t₀ t : Tree ν β) (p : List ν) : Prop :=
  t.get p = t₀.get p ∨ t₀.get p = none ∧ t.get p = some .dir

variable (L) in
/-- What a run has made of a tree when the entries in `D` have been gone through. -/
structure Partway (t₀ t : Tree ν β) (D : ν → ν → Prop) : Prop where
  src_kept : ∀ y c r, L.Entry t₀ y c → L.src y c <+: r → (D y c → L.Refused t₀ y c) →
    t.get r = t₀.get r
  src_gone : ∀ y c r, L.Entry t₀ y c → L.src y c <+: r → D y c → ¬L.Refused t₀ y c →
    t.get r = none
  dst_kept : ∀ y c r, L.Entry t₀ y c → L.dst y c <+: r → (D y c → L.Refused t₀ y c) →
    t.get r = t₀.get r
  dst_new : ∀ y c r, L.Entry t₀ y c → L.dst y c <+: r → D y c → ¬L.Refused t₀ y c →
    t.get r = t₀.get (L.src y c ++ r.drop (L.dst y c).length)
  old_kept : ∀ y r, L.old y = true → L.oldDir y <+: r → r ≠ L.oldDir y →
    (∀ c, L.Entry t₀ y c → ¬L.src y c <+: r) → t.get r = t₀.get r
  oldDir : ∀ y, L.old y = true → t.get (L.oldDir y) = t₀.get (L.oldDir y) ∨
    t.get (L.oldDir y) = none
  dirs : ∀ y c, L.Entry t₀ y c → Kept t₀ t (L.homeDir y c) ∧ Kept t₀ t (L.groupDir y c)
  made : ∀ y c, L.Entry t₀ y c → D y c → t.get (L.homeDir y c) ≠ none ∧
    (t.isDir (L.homeDir y c) = true → t.get (L.groupDir y c) ≠ none)
  rest : ∀ r, (∀ y, L.old y = true → ¬L.oldDir y <+: r) →
    (∀ y c, L.Entry t₀ y c → ¬L.dst y c <+: r) → t₀.get r ≠ none → t.get r = t₀.get r
  fresh : ∀ r, (∀ y c, L.Entry t₀ y c → ¬L.dst y c <+: r ∧ r ≠ L.homeDir y c ∧ r ≠ L.groupDir y c) →
    t₀.isDir r = false → t.isDir r = false
  files : (∀ y c, L.Entry t₀ y c → ¬L.Refused t₀ y c → ¬L.Replaces t₀ y c) →
    t.contents = t₀.contents
  le : t.contents.card ≤ t₀.contents.card
  lost : ∀ y c, L.Entry t₀ y c → D y c → ¬L.Refused t₀ y c → L.Replaces t₀ y c →
    t.contents.card < t₀.contents.card

section

variable {t₀ : Tree ν β} {D D' : ν → ν → Prop}

/-- Which entries have been gone through matters only for those that there are. -/
theorem Partway.congr (h : L.Partway t₀ t D) (hD : ∀ y c, L.Entry t₀ y c → (D y c ↔ D' y c)) :
    L.Partway t₀ t D' where
  src_kept y c r he hr hd := h.src_kept y c r he hr fun hdone => hd ((hD y c he).1 hdone)
  src_gone y c r he hr hd := h.src_gone y c r he hr ((hD y c he).2 hd)
  dst_kept y c r he hr hd := h.dst_kept y c r he hr fun hdone => hd ((hD y c he).1 hdone)
  dst_new y c r he hr hd := h.dst_new y c r he hr ((hD y c he).2 hd)
  old_kept := h.old_kept
  oldDir := h.oldDir
  dirs := h.dirs
  made y c he hd := h.made y c he ((hD y c he).2 hd)
  rest := h.rest
  fresh := h.fresh
  files := h.files
  le := h.le
  lost y c he hd := h.lost y c he ((hD y c he).2 hd)

theorem Kept.taken_iff {p : List ν} (h : Kept t₀ t p) : Taken t p ↔ Taken t₀ p := by
  rcases h with h | ⟨hnone, hdir⟩
  · exact taken_congr h
  · refine iff_of_false (fun htaken => ?_) fun htaken => htaken.1 hnone
    rw [Taken, Tree.isDir_iff.2 hdir] at htaken
    exact Bool.noConfusion htaken.2

/-- What is found on the way was there. -/
theorem Partway.found_of (h : L.Partway t₀ t D) (he : L.Found t y c) : L.Found t₀ y c := by
  obtain ⟨hy, hlisted, hget⟩ := he
  refine ⟨hy, hlisted, fun hnone => hget ?_⟩
  rw [h.old_kept y _ hy oldDir_prefix_src fun heq => ?_]
  · exact hnone
  · rintro d hd hpre
    rw [← (src_inj hpre List.prefix_rfl).2] at hnone
    exact hd.1.2.2 hnone
  · simpa using congrArg List.length heq

/-- The directory of a home can be made on the way if it could before. -/
theorem Partway.reached (ha : L.Apart t₀) (h : L.Partway t₀ t D) (he : L.Entry t₀ y c) :
    L.Reached t y c := by
  intro hnone
  have hready := ha.ready y c he
  have hnone₀ : t₀.get (L.homeDir y c) = none := by
    rcases (h.dirs y c he).1 with hsame | ⟨hnone₀, -⟩
    · rw [← hsame, hnone]
    · exact hnone₀
  have hdir := hready.reached hnone₀
  have hpre : (L.homeDir y c).dropLast <+: L.dst y c :=
    (List.dropLast_prefix _).trans homeDir_prefix_dst
  have hsome : t₀.get (L.homeDir y c).dropLast ≠ none := by
    rw [Tree.isDir_iff.1 hdir]
    exact Option.some_ne_none _
  rw [Tree.isDir_congr (h.rest _ (fun z hz hold => hready.clear.outside z hz (hold.trans hpre))
    (fun z d hez hdst => ?_) hsome)]
  · exact hdir
  · -- where an entry goes is not above where another does
    obtain ⟨rfl, rfl⟩ := ha.flat z d y c hez he (hdst.trans hpre)
    have hle := (hdst.trans (List.dropLast_prefix _)).length_le
    rw [length_dst] at hle
    omega

/-- An entry that has not been gone through is still there. -/
theorem Partway.ready (ha : L.Apart t₀) (h : L.Partway t₀ t D) (he : L.Entry t₀ y c) (hd : ¬D y c) :
    L.Ready t y c := by
  refine ⟨⟨⟨he.1.1, he.1.2.1, ?_⟩, he.2⟩, (ha.ready y c he).clear, h.reached ha he⟩
  rw [h.src_kept y c _ he List.prefix_rfl fun hdone => absurd hdone hd]
  exact he.1.2.2

/-- What is refused, or replaced, depends on the entry and where it goes. -/
theorem Partway.refused_iff (h : L.Partway t₀ t D) (he : L.Entry t₀ y c)
    (hd : D y c → L.Refused t₀ y c) :
    (L.Refused t y c ↔ L.Refused t₀ y c) ∧ (L.Replaces t y c ↔ L.Replaces t₀ y c) := by
  have hsrc := h.src_kept y c _ he List.prefix_rfl hd
  have hdst := h.dst_kept y c _ he List.prefix_rfl hd
  have hentries : t.entries (L.dst y c) = [] ↔ t₀.entries (L.dst y c) = [] := by
    rw [Tree.entries_eq_nil_iff, Tree.entries_eq_nil_iff]
    exact forall_congr' fun n => by rw [h.dst_kept y c _ he (List.prefix_append _ _) hd]
  obtain ⟨hhome, hgroup⟩ := h.dirs y c he
  constructor
  · unfold Refused
    rw [hhome.taken_iff, hgroup.taken_iff, hdst, hentries, Tree.isDir_congr hsrc,
      Tree.isDir_congr hdst]
  · unfold Replaces
    rw [Tree.isDir_congr hsrc, taken_congr hdst]

/-- What else lies in old directories stays. -/
theorem get_moveEntry_old (he : L.Ready t y c) (hz : L.old z = true) (hr : L.oldDir z <+: r)
    (hn : ¬L.src y c <+: r) : (L.moveEntry y t c).get r = t.get r := by
  have hdirs := he.clear.ne_dirs hz hr
  rcases get_moveEntry_of_apart he hn (he.clear.not_below_dst hz hr) with h | ⟨h | h, -, -⟩
  · exact h
  · exact absurd h hdirs.1
  · exact absurd h hdirs.2

/-- What lies where another entry goes stays. -/
theorem get_moveEntry_dst (he : L.Ready t y c) (hc : L.Clear z d)
    (hflat : ¬L.dst y c <+: L.dst z d ∧ ¬L.dst z d <+: L.dst y c) (hr : L.dst z d <+: r) :
    (L.moveEntry y t c).get r = t.get r := by
  have hsrc : ¬L.src y c <+: r := fun h =>
    hc.not_below_dst he.entry.1.1 (oldDir_prefix_src.trans h) hr
  have hdst : ¬L.dst y c <+: r := fun h =>
    (List.prefix_or_prefix_of_prefix h hr).elim hflat.1 hflat.2
  rcases get_moveEntry_of_apart he hsrc hdst with h | ⟨rfl | rfl, -, -⟩
  · exact h
  · exact absurd (hr.trans homeDir_prefix_dst) hflat.2
  · exact absurd (hr.trans groupDir_prefix_dst) hflat.2

/-- The directories of an entry change only if they are made. -/
theorem get_moveEntry_dir (he : L.Ready t y c) (hc : L.Clear z d)
    (hflat : L.dst y c <+: L.dst z d → y = z ∧ c = d)
    (hr : r = L.homeDir z d ∨ r = L.groupDir z d) :
    (L.moveEntry y t c).get r = t.get r ∨
      t.get r = none ∧ (L.moveEntry y t c).get r = some .dir := by
  have hpre : r <+: L.dst z d := by
    rcases hr with rfl | rfl
    · exact homeDir_prefix_dst
    · exact groupDir_prefix_dst
  have hsrc : ¬L.src y c <+: r := fun h =>
    hc.outside y he.entry.1.1 ((oldDir_prefix_src.trans h).trans hpre)
  have hdst : ¬L.dst y c <+: r := fun h => by
    obtain ⟨rfl, rfl⟩ := hflat (h.trans hpre)
    obtain ⟨hhome, hgroup⟩ := ne_dirs_of_below h
    exact hr.elim hhome hgroup
  rcases get_moveEntry_of_apart he hsrc hdst with h | ⟨-, h⟩
  · exact .inl h
  · exact .inr h

/-- Behind the move of an entry its directories are there, if they can be. -/
theorem made_moveEntry (he : L.Ready t y c) :
    (L.moveEntry y t c).get (L.homeDir y c) ≠ none ∧
      ((L.moveEntry y t c).isDir (L.homeDir y c) = true →
        (L.moveEntry y t c).get (L.groupDir y c) ≠ none) := by
  have hway := he.reached
  have hmade : ∀ r, r = L.homeDir y c ∨ r = L.groupDir y c →
      (L.moveEntry y t c).get r = (L.made t y c).get r := by
    intro r hr
    by_cases href : L.Refused t y c
    · rw [moveEntry_of_refused he href]
    · rw [get_moveEntry he href, if_neg fun h => ?_, if_neg fun h => ?_]
      · obtain ⟨hhome, hgroup⟩ := he.clear.ne_dirs he.entry.1.1 (oldDir_prefix_src.trans h)
        exact hr.elim hhome hgroup
      · obtain ⟨hhome, hgroup⟩ := ne_dirs_of_below h
        exact hr.elim hhome hgroup
  rw [Tree.isDir_congr (hmade _ (.inl rfl)), hmade _ (.inl rfl), hmade _ (.inr rfl)]
  constructor
  · by_cases hhome : t.get (L.homeDir y c) = none
    · rw [get_made hway, if_pos (.inl ⟨rfl, hhome⟩)]
      exact Option.some_ne_none _
    · rwa [get_made_of_get hway hhome]
  · intro hdir
    by_cases hgroup : t.get (L.groupDir y c) = none
    · have htaken : ¬Taken t (L.homeDir y c) := by
        rintro ⟨hhome, hfile⟩
        rw [Tree.isDir_congr (get_made_of_get hway hhome), hfile] at hdir
        cases hdir
      rw [get_made hway, if_pos (.inr ⟨rfl, hgroup, htaken⟩)]
      exact Option.some_ne_none _
    · rwa [get_made_of_get hway hgroup]

/-- A move makes no file, and loses one if it replaces it. -/
theorem card_moveEntry (he : L.Ready t y c) :
    (L.moveEntry y t c).contents.card ≤ t.contents.card ∧
      (¬L.Refused t y c → L.Replaces t y c →
        (L.moveEntry y t c).contents.card < t.contents.card) := by
  by_cases href : L.Refused t y c
  · rw [moveEntry_of_refused he href, contents_made]
    exact ⟨le_rfl, fun h => absurd href h⟩
  · rw [contents_moveEntry he href, Multiset.card_add]
    refine ⟨Nat.le_add_left _ _, fun _ hrep => ?_⟩
    obtain ⟨b, hb⟩ := content_of_replaces hrep
    rw [hb]
    exact Nat.lt_add_of_pos_left Nat.zero_lt_one

theorem Kept.step {t₀ t t' : Tree ν β} {p : List ν} (h : Kept t₀ t p)
    (hstep : t'.get p = t.get p ∨ t.get p = none ∧ t'.get p = some .dir) : Kept t₀ t' p := by
  rcases hstep with hsame | ⟨hnone, hdir⟩
  · rwa [Kept, hsame]
  · rcases h with h | ⟨-, h⟩
    · exact .inr ⟨h.symm.trans hnone, hdir⟩
    · rw [hnone] at h
      cases h

/-- One more entry is gone through. -/
theorem Partway.step (ha : L.Apart t₀) (h : L.Partway t₀ t D) (he₀ : L.Entry t₀ y c)
    (hd : ¬D y c) : L.Partway t₀ (L.moveEntry y t c) fun z d => D z d ∨ z = y ∧ d = c := by
  have hnot : D y c → L.Refused t₀ y c := fun hdone => absurd hdone hd
  obtain ⟨hrefused, hreplaces⟩ := h.refused_iff he₀ hnot
  have he := h.ready ha he₀ hd
  have hapart : ∀ z d r, L.Entry t₀ z d → ¬(z = y ∧ d = c) → L.src z d <+: r →
      (L.moveEntry y t c).get r = t.get r := fun z d r hez hne hr =>
    get_moveEntry_old he hez.1.1 (oldDir_prefix_src.trans hr) fun hpre => hne (src_inj hr hpre)
  have hflat : ∀ z d, L.Entry t₀ z d → ¬(z = y ∧ d = c) →
      ¬L.dst y c <+: L.dst z d ∧ ¬L.dst z d <+: L.dst y c := fun z d hez hne =>
    ⟨fun hpre => hne ((ha.flat y c z d he₀ hez hpre).imp Eq.symm Eq.symm),
      fun hpre => hne (ha.flat z d y c hez he₀ hpre)⟩
  have hdirs : ∀ z d r, L.Entry t₀ z d → r = L.homeDir z d ∨ r = L.groupDir z d →
      (L.moveEntry y t c).get r = t.get r ∨
        t.get r = none ∧ (L.moveEntry y t c).get r = some .dir := fun z d r hez hr =>
    get_moveEntry_dir he (ha.ready z d hez).clear (ha.flat y c z d he₀ hez) hr
  -- the paths of other entries are apart from those of this one, so only its own facts are new
  constructor
  case src_kept =>
    intro z d r hez hr hdone
    by_cases heq : z = y ∧ d = c
    · obtain ⟨rfl, rfl⟩ := heq
      have href := hrefused.2 (hdone (.inr ⟨rfl, rfl⟩))
      rw [get_moveEntry_of_refused he href (.inl hr), h.src_kept z d r he₀ hr hnot]
    · rw [hapart z d r hez heq hr]
      exact h.src_kept z d r hez hr fun hz => hdone (.inl hz)
  case src_gone =>
    intro z d r hez hr hdone href
    by_cases heq : z = y ∧ d = c
    · obtain ⟨rfl, rfl⟩ := heq
      have hdst := he.clear.not_below_dst he.entry.1.1 (oldDir_prefix_src.trans hr)
      rw [get_moveEntry he fun hr => href (hrefused.1 hr), if_neg hdst, if_pos hr]
    · rw [hapart z d r hez heq hr]
      exact h.src_gone z d r hez hr (hdone.resolve_right heq) href
  case dst_kept =>
    intro z d r hez hr hdone
    by_cases heq : z = y ∧ d = c
    · obtain ⟨rfl, rfl⟩ := heq
      have href := hrefused.2 (hdone (.inr ⟨rfl, rfl⟩))
      rw [get_moveEntry_of_refused he href (.inr hr), h.dst_kept z d r he₀ hr hnot]
    · rw [get_moveEntry_dst he (ha.ready z d hez).clear (hflat z d hez heq) hr]
      exact h.dst_kept z d r hez hr fun hz => hdone (.inl hz)
  case dst_new =>
    intro z d r hez hr hdone href
    by_cases heq : z = y ∧ d = c
    · obtain ⟨rfl, rfl⟩ := heq
      rw [get_moveEntry he fun hr => href (hrefused.1 hr), if_pos hr]
      exact h.src_kept z d _ he₀ (List.prefix_append _ _) hnot
    · rw [get_moveEntry_dst he (ha.ready z d hez).clear (hflat z d hez heq) hr]
      exact h.dst_new z d r hez hr (hdone.resolve_right heq) href
  case old_kept =>
    intro z r hz hr hne hnone
    have hsrc : ¬L.src y c <+: r := fun hpre => by
      have heq : z = y := name_eq_of_prefixes hr (oldDir_prefix_src.trans hpre)
      subst heq
      exact hnone c he₀ hpre
    rw [get_moveEntry_old he hz hr hsrc]
    exact h.old_kept z r hz hr hne hnone
  case oldDir =>
    intro z hz
    have hsrc : ¬L.src y c <+: L.oldDir z := fun hpre => absurd hpre.length_le (by simp)
    rw [get_moveEntry_old he hz List.prefix_rfl hsrc]
    exact h.oldDir z hz
  case dirs =>
    intro z d hez
    obtain ⟨hhome, hgroup⟩ := h.dirs z d hez
    exact ⟨hhome.step (hdirs z d _ hez (.inl rfl)), hgroup.step (hdirs z d _ hez (.inr rfl))⟩
  case made =>
    intro z d hez hdone
    by_cases heq : z = y ∧ d = c
    · obtain ⟨rfl, rfl⟩ := heq
      exact made_moveEntry he
    · obtain ⟨hhome, hgroup⟩ := h.made z d hez (hdone.resolve_right heq)
      have hsame := (hdirs z d _ hez (.inl rfl)).resolve_right fun hnew => hhome hnew.1
      rw [Tree.isDir_congr hsame, hsame]
      refine ⟨hhome, fun hdir => ?_⟩
      rw [(hdirs z d _ hez (.inr rfl)).resolve_right fun hnew => hgroup hdir hnew.1]
      exact hgroup hdir
  case rest =>
    intro r hold hdst hr
    have hsame := h.rest r hold hdst hr
    rcases get_moveEntry_of_apart he
      (fun hpre => hold y he.entry.1.1 (oldDir_prefix_src.trans hpre)) (hdst y c he₀) with hkept | hnew
    · exact hkept.trans hsame
    · rw [hsame] at hnew
      exact absurd hnew.2.1 hr
  case fresh =>
    intro r hr hdir
    have hbefore := h.fresh r hr hdir
    obtain ⟨hdst, hhome, hgroup⟩ := hr y c he₀
    by_cases hsrc : L.src y c <+: r
    · by_cases href : L.Refused t y c
      · rw [Tree.isDir_congr (get_moveEntry_of_refused he href (.inl hsrc)), hbefore]
      · rw [Tree.isDir, get_moveEntry he href, if_neg hdst, if_pos hsrc]
    · rcases get_moveEntry_of_apart he hsrc hdst with hkept | ⟨rfl | rfl, -, -⟩
      · rw [Tree.isDir_congr hkept, hbefore]
      · exact absurd rfl hhome
      · exact absurd rfl hgroup
  case files =>
    intro hall
    rw [← h.files hall]
    by_cases href : L.Refused t y c
    · rw [moveEntry_of_refused he href, contents_made]
    · have hrep : ¬L.Replaces t y c := fun hrep =>
        hall y c he₀ (fun hr => href (hrefused.2 hr)) (hreplaces.1 hrep)
      rw [contents_moveEntry he href, content_of_not_replaces href hrep]
      exact (Multiset.zero_add _).symm
  case le => exact (card_moveEntry he).1.trans h.le
  case lost =>
    intro z d hez hdone href hrep
    by_cases heq : z = y ∧ d = c
    · obtain ⟨rfl, rfl⟩ := heq
      have hless := (card_moveEntry he).2 (fun hr => href (hrefused.1 hr)) (hreplaces.2 hrep)
      exact hless.trans_le h.le
    · exact (card_moveEntry he).1.trans_lt
        (h.lost z d hez (hdone.resolve_right heq) href hrep)

/-! ## All entries -/

theorem get_rmdir_oldDir (t : Tree ν β) (z : ν) (r : List ν) :
    (t.rmdir ((L.oldDir z).map .name)).get r =
      if r = L.oldDir z ∧ t.isDir (L.oldDir z) = true ∧ t.entries (L.oldDir z) = [] then none
      else t.get r := Tree.get_rmdir_names t L.root z r

/-- An old directory is removed if it is empty. -/
theorem Partway.rmdir (ha : L.Apart t₀) (h : L.Partway t₀ t D) (hz : L.old z = true) :
    L.Partway t₀ (t.rmdir ((L.oldDir z).map .name)) D := by
  have hne : ∀ r, r ≠ L.oldDir z → (t.rmdir ((L.oldDir z).map .name)).get r = t.get r :=
    fun r hr => by rw [get_rmdir_oldDir, if_neg fun h => hr h.1]
  have hlong : ∀ p r : List ν, p <+: r → L.root.length + 2 ≤ p.length → r ≠ L.oldDir z := by
    rintro p r hpre hlen rfl
    have hle := hpre.length_le
    rw [length_oldDir] at hle
    omega
  have hdst : ∀ y c r, L.Entry t₀ y c → L.dst y c <+: r → r ≠ L.oldDir z := by
    rintro y c r he hpre rfl
    exact (ha.ready y c he).clear.not_below_dst hz List.prefix_rfl hpre
  have hdirs : ∀ y c, L.Entry t₀ y c →
      (t.rmdir ((L.oldDir z).map .name)).get (L.homeDir y c) = t.get (L.homeDir y c) ∧
        (t.rmdir ((L.oldDir z).map .name)).get (L.groupDir y c) = t.get (L.groupDir y c) :=
    fun y c he => by
      obtain ⟨hhome, hgroup⟩ := (ha.ready y c he).clear.ne_dirs hz List.prefix_rfl
      exact ⟨hne _ hhome.symm, hne _ hgroup.symm⟩
  constructor
  case src_kept =>
    intro y c r he hr hdone
    rw [hne r (hlong _ r hr (by simp))]
    exact h.src_kept y c r he hr hdone
  case src_gone =>
    intro y c r he hr hdone href
    rw [hne r (hlong _ r hr (by simp))]
    exact h.src_gone y c r he hr hdone href
  case dst_kept =>
    intro y c r he hr hdone
    rw [hne r (hdst y c r he hr)]
    exact h.dst_kept y c r he hr hdone
  case dst_new =>
    intro y c r he hr hdone href
    rw [hne r (hdst y c r he hr)]
    exact h.dst_new y c r he hr hdone href
  case old_kept =>
    intro y r hy hr hold hnone
    have hother : r ≠ L.oldDir z := by
      rintro rfl
      exact hold (hr.eq_of_length (by simp)).symm
    rw [hne r hother]
    exact h.old_kept y r hy hr hold hnone
  case oldDir =>
    intro y hy
    rw [get_rmdir_oldDir]
    split_ifs
    · exact .inr rfl
    · exact h.oldDir y hy
  case dirs =>
    intro y c he
    rw [Kept, Kept, (hdirs y c he).1, (hdirs y c he).2]
    exact h.dirs y c he
  case made =>
    intro y c he hdone
    rw [Tree.isDir_congr (hdirs y c he).1, (hdirs y c he).1, (hdirs y c he).2]
    exact h.made y c he hdone
  case rest =>
    intro r hold hdst hr
    have hother : r ≠ L.oldDir z := by
      rintro rfl
      exact hold z hz List.prefix_rfl
    rw [hne r hother]
    exact h.rest r hold hdst hr
  case fresh =>
    intro r hr hdir
    have hbefore := h.fresh r hr hdir
    rw [Tree.isDir, get_rmdir_oldDir]
    split_ifs
    · rfl
    · exact hbefore
  case files => exact fun hall => (Tree.contents_rmdir _ _).trans (h.files hall)
  case le =>
    rw [Tree.contents_rmdir]
    exact h.le
  case lost =>
    intro y c he hdone href hrep
    rw [Tree.contents_rmdir]
    exact h.lost y c he hdone href hrep

variable {move : ν → Tree ν β → ν → Tree ν β}

variable (L) in
/-- A way to give entries their turns that comes to the same wherever a run passes. -/
def SameTurns (t₀ : Tree ν β) (move : ν → Tree ν β → ν → Tree ν β) : Prop :=
  ∀ t D, L.Partway t₀ t D → ∀ y c, L.Found t y c → move y t c = L.turn y t c

/-- What has not been gone through is still found. -/
theorem Partway.found (h : L.Partway t₀ t D) (hf : L.Found t₀ y c) (hd : ¬D y c) : L.Found t y c := by
  refine ⟨hf.1, hf.2.1, ?_⟩
  by_cases hm : L.moves y c = true
  · rw [h.src_kept y c _ ⟨hf, hm⟩ List.prefix_rfl fun hdone => absurd hdone hd]
    exact hf.2.2
  · rw [h.old_kept y _ hf.1 oldDir_prefix_src fun heq => ?_]
    · exact hf.2.2
    · rintro d hed hpre
      obtain ⟨-, rfl⟩ := src_inj hpre List.prefix_rfl
      exact hm hed.2
    · simpa using congrArg List.length heq

/-- A turn goes through an entry, and no old directory comes or goes. -/
theorem Partway.turn (ha : L.Apart t₀) (h : L.Partway t₀ t D) (hf : L.Found t₀ y c) (hd : ¬D y c) :
    L.Partway t₀ (L.turn y t c) (fun z d => D z d ∨ z = y ∧ d = c) ∧
      ∀ z, L.old z = true → (L.turn y t c).get (L.oldDir z) = t.get (L.oldDir z) := by
  unfold Relocation.turn
  split_ifs with hm
  · have he : L.Entry t₀ y c := ⟨hf, hm⟩
    exact ⟨h.step ha he hd, fun z hz => get_moveEntry_old (h.ready ha he hd) hz List.prefix_rfl
      fun hpre => absurd hpre.length_le (by simp)⟩
  · refine ⟨h.congr fun z d he => ?_, fun z _ => rfl⟩
    rw [or_iff_left]
    rintro ⟨rfl, rfl⟩
    exact hm he.2

/-- Some entries of an old directory are gone through, and its name stays until it is removed.
Whatever moves each of them in the same way comes to the same. -/
theorem Partway.foldl (ha : L.Apart t₀) (hmove : L.SameTurns t₀ move) (h : L.Partway t₀ t D)
    {cs : List ν} (hcs : cs.Nodup) (hf : ∀ c ∈ cs, L.Found t₀ y c ∧ ¬D y c) :
    cs.foldl (move y) t = cs.foldl (L.turn y) t ∧
      L.Partway t₀ (cs.foldl (L.turn y) t) (fun z d => D z d ∨ z = y ∧ d ∈ cs) ∧
      ∀ z, L.old z = true → (cs.foldl (L.turn y) t).get (L.oldDir z) = t.get (L.oldDir z) := by
  induction cs generalizing t D with
  | nil => exact ⟨rfl, h.congr fun z d _ => by simp, fun z _ => rfl⟩
  | cons c cs ih =>
    obtain ⟨hfc, hd⟩ := hf c List.mem_cons_self
    obtain ⟨hturn, hkept⟩ := h.turn ha hfc hd
    obtain ⟨heq, hrest, hold⟩ := ih hturn hcs.of_cons fun d hdcs => by
      refine ⟨(hf d (List.mem_cons_of_mem _ hdcs)).1, ?_⟩
      rintro (hdone | ⟨-, rfl⟩)
      · exact (hf d (List.mem_cons_of_mem _ hdcs)).2 hdone
      · exact hcs.notMem hdcs
    refine ⟨?_, hrest.congr fun z d _ => ?_, fun z hz => ?_⟩
    · rw [List.foldl_cons, List.foldl_cons, hmove t D h y c (h.found hfc hd)]
      exact heq
    · rw [List.mem_cons]
      tauto
    · rw [List.foldl_cons, hold z hz, hkept z hz]

variable (L) in
/-- The run is through with some old directories: their entries have been gone through, and none of
them is left empty. -/
structure Through (t₀ t : Tree ν β) (ys : List ν) : Prop where
  partway : L.Partway t₀ t fun y _ => y ∈ ys
  left : ∀ y ∈ ys, t.isDir (L.oldDir y) = true → t.entries (L.oldDir y) ≠ []

/-- What lies in an old directory does not depend on how far the run is with others. -/
theorem Partway.get_old_eq (h : L.Partway t₀ t D) (h' : L.Partway t₀ t' D')
    (hD : ∀ c, L.Entry t₀ z c → (D z c ↔ D' z c)) (hz : L.old z = true) (hr : L.oldDir z <+: r)
    (hne : r ≠ L.oldDir z) : t'.get r = t.get r := by
  by_cases hentry : ∃ c, L.Entry t₀ z c ∧ L.src z c <+: r
  · obtain ⟨c, he, hpre⟩ := hentry
    by_cases hmoved : D z c ∧ ¬L.Refused t₀ z c
    · rw [h.src_gone z c r he hpre hmoved.1 hmoved.2,
        h'.src_gone z c r he hpre ((hD c he).1 hmoved.1) hmoved.2]
    · rw [not_and_not_right] at hmoved
      rw [h.src_kept z c r he hpre hmoved,
        h'.src_kept z c r he hpre fun hd => hmoved ((hD c he).2 hd)]
  · have hnone : ∀ c, L.Entry t₀ z c → ¬L.src z c <+: r := fun c he hpre => hentry ⟨c, he, hpre⟩
    rw [h.old_kept z r hz hr hne hnone, h'.old_kept z r hz hr hne hnone]

/-- One more old directory is gone through. -/
theorem Through.step (ha : L.Apart t₀) (hmove : L.SameTurns t₀ move) {ys : List ν}
    (h : L.Through t₀ t ys) (hy : L.old y = true) (hold : ∀ z ∈ ys, L.old z = true) (hnew : y ∉ ys) :
    L.moveAllWith move t y = L.moveAllWith L.turn t y ∧
      L.Through t₀ (L.moveAllWith L.turn t y) (y :: ys) := by
  unfold moveAllWith
  have hfound : ∀ c, L.Found t y c ↔ L.Found t₀ y c := fun c =>
    ⟨h.partway.found_of, fun hf => h.partway.found hf hnew⟩
  by_cases hdir : t.isDir (L.oldDir y) = true
  · rw [if_pos hdir, if_pos hdir]
    set cs := (t.entries (L.oldDir y)).filter L.listed
    have hmem : ∀ c, c ∈ cs ↔ L.Found t₀ y c := by
      intro c
      rw [List.mem_filter, Tree.mem_entries, ← hfound]
      exact ⟨fun hc => ⟨hy, hc.2, hc.1⟩, fun hf => ⟨hf.2.2, hf.2.1⟩⟩
    have hnodup : cs.Nodup := (t.nodup_entries _).filter _
    obtain ⟨heq, hmoved, hkeeps⟩ :=
      h.partway.foldl ha hmove hnodup fun c hc => ⟨(hmem c).1 hc, hnew⟩
    rw [heq]
    generalize cs.foldl (L.turn y) t = t₁ at hmoved hkeeps
    have hremoved := hmoved.rmdir ha hy
    have hdone : L.Partway t₀ (t₁.rmdir ((L.oldDir y).map .name)) fun z _ => z ∈ y :: ys := by
      refine hremoved.congr fun z d he => ?_
      rw [List.mem_cons]
      constructor
      · rintro (hz | ⟨hz, -⟩)
        · exact .inr hz
        · exact .inl hz
      · rintro (rfl | hz)
        · exact .inr ⟨rfl, (hmem d).2 he.1⟩
        · exact .inl hz
    refine ⟨rfl, hdone, fun z hz hzdir hempty => ?_⟩
    rw [Tree.entries_eq_nil_iff] at hempty
    by_cases hzy : z = y
    · -- a directory that is left empty is removed
      subst hzy
      have hnames : t₁.entries (L.oldDir z) = [] := by
        rw [Tree.entries_eq_nil_iff]
        intro n
        rw [← hempty n, get_rmdir_oldDir, if_neg fun h => absurd h.1 (by simp)]
      rw [Tree.isDir_iff, get_rmdir_oldDir] at hzdir
      split_ifs at hzdir with hgone
      exact hgone ⟨rfl, Tree.isDir_iff.2 hzdir, hnames⟩
    · have hzs := (List.mem_cons.1 hz).resolve_left hzy
      have hsame : (t₁.rmdir ((L.oldDir y).map .name)).get (L.oldDir z) =
          t.get (L.oldDir z) := by
        rw [get_rmdir_oldDir, if_neg fun h => hzy ?_, hkeeps z (hold z hzs)]
        have heq := h.1
        rw [oldDir, oldDir, List.append_cancel_left_eq] at heq
        exact List.singleton_inj.1 heq
      rw [Tree.isDir_congr hsame] at hzdir
      refine h.left z hzs hzdir (Tree.entries_eq_nil_iff.2 fun n => ?_)
      rw [← hempty n]
      exact (h.partway.get_old_eq hdone (fun c _ => iff_of_true hzs hz) (hold z hzs)
        (List.prefix_append _ _) (by simp)).symm
  · rw [if_neg hdir, if_neg hdir]
    have hnone : ∀ c, ¬L.Entry t₀ y c := fun c he =>
      hdir (Tree.isDir_of_get (List.cons_ne_nil _ _) ((hfound c).2 he.1).2.2)
    refine ⟨rfl, h.partway.congr fun z d he => ?_, fun z hz hzdir => ?_⟩
    · rw [List.mem_cons]
      refine ⟨.inr, fun hz => hz.resolve_left ?_⟩
      rintro rfl
      exact hnone d he
    · rcases List.mem_cons.1 hz with rfl | hz
      · exact absurd hzdir hdir
      · exact h.left z hz hzdir

/-- Old directories are gone through one after another. -/
theorem Through.foldl (ha : L.Apart t₀) (hmove : L.SameTurns t₀ move) {ys zs : List ν}
    (h : L.Through t₀ t ys) (hold : ∀ z ∈ ys, L.old z = true) (hzs : ∀ z ∈ zs, L.old z = true)
    (hnodup : zs.Nodup) (hnew : ∀ z ∈ zs, z ∉ ys) :
    zs.foldl (L.moveAllWith move) t = zs.foldl (L.moveAllWith L.turn) t ∧
      L.Through t₀ (zs.foldl (L.moveAllWith L.turn) t) (zs.reverse ++ ys) := by
  induction zs generalizing t ys with
  | nil => exact ⟨rfl, h⟩
  | cons z zs ih =>
    have hz := hzs z List.mem_cons_self
    obtain ⟨heq, hstep⟩ := h.step ha hmove hz hold (hnew z List.mem_cons_self)
    rw [List.foldl_cons, List.foldl_cons, heq, List.reverse_cons, List.append_assoc]
    refine ih hstep (List.forall_mem_cons.2 ⟨hz, hold⟩)
      (fun w hw => hzs w (List.mem_cons_of_mem _ hw)) hnodup.of_cons fun w hw hmem => ?_
    rcases List.mem_cons.1 hmem with rfl | hmem
    · exact hnodup.notMem hw
    · exact hnew w (List.mem_cons_of_mem _ hw) hmem

end

/-! ## What a run leaves -/

section

variable {t₀ : Tree ν β} {move : ν → Tree ν β → ν → Tree ν β}

/-- An entry of an old directory that is itself the directory of an old name, with directories in
it. -/
def Holds (L : Relocation ν) (t : Tree ν β) (y c : ν) : Prop :=
  L.old c = true ∧ ∃ d, t.isDir (L.src y c ++ [d]) = true

end

end Relocation

end Lib
