import Mathlib.Data.List.AList
import Mathlib.Tactic

/-!
# Files under names

A file system as far as its names go: a name leads to a file, a file has a content, and no two names
lead to the same file. What is done to a file through a handle (`write`) and what is done to a name
(`create`, `unlink`, `rename`) are separate, so that a file that has lost its name can still be
written and a name can come to lead to another file. Renaming onto a name that exists replaces it.
Each operation has one lemma that says what every name reads afterwards.
-/

namespace Lib

/-- Files of contents in `β` under names in `ν`. -/
structure Fs (ν β : Type*) [DecidableEq ν] where
  /-- The file that a name leads to, in the order in which names are listed. -/
  dir : AList fun _ : ν => ℕ
  /-- The content of a file. -/
  content : ℕ → β
  /-- The file that the next new name will lead to. -/
  next : ℕ
  lt_next : ∀ n i, dir.lookup n = some i → i < next
  inj : ∀ n m i, dir.lookup n = some i → dir.lookup m = some i → n = m

namespace Fs

variable {ν β : Type*} [DecidableEq ν]

/-- No files. -/
def empty (b : β) : Fs ν β where
  dir := ∅
  content _ := b
  next := 0
  lt_next n i h := by simp at h
  inj n m i h := by simp at h

/-- The file under a name. -/
def find (fs : Fs ν β) (n : ν) : Option ℕ := fs.dir.lookup n

/-- What a name reads. -/
def read (fs : Fs ν β) (n : ν) : Option β := (fs.find n).map fs.content

/-- The names, in the order of a listing. -/
def names (fs : Fs ν β) : List ν := fs.dir.keys

theorem mem_names {fs : Fs ν β} {n : ν} : n ∈ fs.names ↔ fs.find n ≠ none := by
  rw [names, ← AList.mem_keys, ← AList.lookup_isSome, find, Option.isSome_iff_ne_none]

theorem read_eq_none_iff {fs : Fs ν β} {n : ν} : fs.read n = none ↔ fs.find n = none := by
  simp [read]

/-! ## Contents -/

/-- Giving a file a content. -/
def write (fs : Fs ν β) (i : ℕ) (b : β) : Fs ν β :=
  { fs with content := Function.update fs.content i b }

@[simp] theorem find_write (fs : Fs ν β) (i : ℕ) (b : β) (n : ν) :
    (fs.write i b).find n = fs.find n := rfl

theorem read_write (fs : Fs ν β) (i : ℕ) (b : β) (n : ν) :
    (fs.write i b).read n = if fs.find n = some i then some b else fs.read n := by
  unfold read
  rw [find_write]
  cases h : fs.find n with
  | none => simp
  | some j =>
    by_cases hj : j = i
    · simp [hj, write]
    · simp [hj, write]

/-! ## Names -/

/-- Opening a name for writing from the start: the file under it is emptied to `b`, or there is a
new file with the content `b`. -/
def create (fs : Fs ν β) (n : ν) (b : β) : Fs ν β × ℕ :=
  match hn : fs.find n with
  | some i => (fs.write i b, i)
  | none =>
    ({ dir := fs.dir.insert n fs.next
       content := Function.update fs.content fs.next b
       next := fs.next + 1
       lt_next := by
        intro m i h
        by_cases hm : m = n
        · subst hm
          rw [AList.lookup_insert, Option.some.injEq] at h
          omega
        · rw [AList.lookup_insert_ne hm] at h
          exact (fs.lt_next m i h).trans (Nat.lt_succ_self _)
       inj := by
        intro m k i hm hk
        by_cases h1 : m = n <;> by_cases h2 : k = n
        · rw [h1, h2]
        · subst h1
          rw [AList.lookup_insert, Option.some.injEq] at hm
          rw [AList.lookup_insert_ne h2] at hk
          exact absurd (fs.lt_next k i hk) (by omega)
        · subst h2
          rw [AList.lookup_insert, Option.some.injEq] at hk
          rw [AList.lookup_insert_ne h1] at hm
          exact absurd (fs.lt_next m i hm) (by omega)
        · rw [AList.lookup_insert_ne h1] at hm
          rw [AList.lookup_insert_ne h2] at hk
          exact fs.inj m k i hm hk }, fs.next)

/-- Taking a name away. -/
def unlink (fs : Fs ν β) (n : ν) : Fs ν β where
  dir := fs.dir.erase n
  content := fs.content
  next := fs.next
  lt_next m i h := by
    by_cases hm : m = n
    · subst hm; simp at h
    · exact fs.lt_next m i (by rwa [AList.lookup_erase_ne hm] at h)
  inj m k i hm hk := by
    by_cases h1 : m = n
    · subst h1; simp at hm
    · by_cases h2 : k = n
      · subst h2; simp at hk
      · rw [AList.lookup_erase_ne h1] at hm
        rw [AList.lookup_erase_ne h2] at hk
        exact fs.inj m k i hm hk

/-- Giving the file under `a` the name `b`, in place of whatever had it. Nothing happens if there is
no file under `a`. -/
def rename (fs : Fs ν β) (a b : ν) : Fs ν β :=
  match ha : fs.find a with
  | none => fs
  | some i =>
    if hab : a = b then fs
    else
      { dir := (fs.dir.erase a).insert b i
        content := fs.content
        next := fs.next
        lt_next := by
          intro m j h
          by_cases hm : m = b
          · subst hm
            rw [AList.lookup_insert, Option.some.injEq] at h
            exact h ▸ fs.lt_next a i ha
          · rw [AList.lookup_insert_ne hm] at h
            by_cases hm' : m = a
            · subst hm'; simp at h
            · exact fs.lt_next m j (by rwa [AList.lookup_erase_ne hm'] at h)
        inj := by
          have key : ∀ m j, (fs.dir.erase a).lookup m = some j → fs.find m = some j ∧ m ≠ a := by
            intro m j h
            by_cases hm : m = a
            · subst hm; simp at h
            · exact ⟨by rwa [AList.lookup_erase_ne hm] at h, hm⟩
          intro m k j hm hk
          by_cases h1 : m = b <;> by_cases h2 : k = b
          · rw [h1, h2]
          · subst h1
            rw [AList.lookup_insert, Option.some.injEq] at hm
            rw [AList.lookup_insert_ne h2] at hk
            obtain ⟨hk1, hk2⟩ := key k j hk
            exact absurd (fs.inj k a j hk1 (hm ▸ ha)) hk2
          · subst h2
            rw [AList.lookup_insert, Option.some.injEq] at hk
            rw [AList.lookup_insert_ne h1] at hm
            obtain ⟨hm1, hm2⟩ := key m j hm
            exact absurd (fs.inj m a j hm1 (hk ▸ ha)) hm2
          · rw [AList.lookup_insert_ne h1] at hm
            rw [AList.lookup_insert_ne h2] at hk
            exact fs.inj m k j (key m j hm).1 (key k j hk).1 }

theorem find_create (fs : Fs ν β) (n : ν) (b : β) (m : ν) :
    (fs.create n b).1.find m = if m = n then some (fs.create n b).2 else fs.find m := by
  unfold create
  split
  · next i hi =>
    split_ifs with hm
    · rw [hm, find_write, hi]
    · rfl
  · split_ifs with hm
    · subst hm; simp [find]
    · simp [find, AList.lookup_insert_ne hm]

/-- A created name leads to another file than the other names do. -/
theorem create_snd_ne {fs : Fs ν β} {n m : ν} {i : ℕ} (hm : fs.find m = some i) (hne : m ≠ n)
    (b : β) : (fs.create n b).2 ≠ i := by
  rintro rfl
  have hcreated : (fs.create n b).1.find n = some (fs.create n b).2 := by rw [find_create, if_pos rfl]
  have hkept : (fs.create n b).1.find m = some (fs.create n b).2 := by
    rw [find_create, if_neg hne, hm]
  exact hne ((fs.create n b).1.inj m n _ hkept hcreated)

/-- What a created file holds, and that the others keep what they had. -/
theorem content_create (fs : Fs ν β) (n : ν) (b : β) (i : ℕ) :
    (fs.create n b).1.content i = if i = (fs.create n b).2 then b else fs.content i := by
  unfold create
  split
  · simp [write, Function.update_apply]
  · simp [Function.update_apply]

theorem create_of_find_eq_none {fs : Fs ν β} {n : ν} (hn : fs.find n = none) (b : β) :
    (fs.create n b).2 = fs.next ∧ (fs.create n b).1.next = fs.next + 1 := by
  unfold create
  split
  · next i hi => simp [hn] at hi
  · exact ⟨rfl, rfl⟩

theorem next_le_create (fs : Fs ν β) (n : ν) (b : β) : fs.next ≤ (fs.create n b).1.next := by
  unfold create
  split
  · exact le_rfl
  · exact Nat.le_succ _

/-- A created name reads what was put into it, and every other name what it did. -/
theorem read_create (fs : Fs ν β) (n : ν) (b : β) (m : ν) :
    (fs.create n b).1.read m = if m = n then some b else fs.read m := by
  unfold create
  split
  · next i hi =>
    rw [read_write]
    split_ifs with h1 h2 h2
    · rfl
    · exact absurd (fs.inj m n i h1 hi) h2
    · exact absurd (h2 ▸ hi) h1
    · rfl
  · split_ifs with hm
    · subst hm; simp [read, find]
    · have hne : ∀ i, fs.dir.lookup m = some i → i ≠ fs.next := fun i h => (fs.lt_next m i h).ne
      simp only [read, find, AList.lookup_insert_ne hm]
      cases h : fs.dir.lookup m with
      | none => rfl
      | some i => simp [Function.update_of_ne (hne i h)]

/-- Writing through the handle that a creation gave changes what the created name reads. -/
theorem read_write_create (fs : Fs ν β) (n : ν) (b c : β) (m : ν) :
    ((fs.create n b).1.write (fs.create n b).2 c).read m = if m = n then some c else fs.read m := by
  have hn : (fs.create n b).1.find n = some (fs.create n b).2 := by rw [find_create, if_pos rfl]
  rw [read_write]
  split_ifs with h1 h2 h2
  · rfl
  · exact absurd ((fs.create n b).1.inj m n _ h1 hn) h2
  · exact absurd (h2 ▸ hn) h1
  · rw [read_create, if_neg h2]

theorem find_unlink (fs : Fs ν β) (n m : ν) :
    (fs.unlink n).find m = if m = n then none else fs.find m := by
  unfold unlink find
  split_ifs with h
  · subst h; simp
  · exact AList.lookup_erase_ne h

/-- An unlinked name reads nothing, and every other name what it did. -/
theorem read_unlink (fs : Fs ν β) (n m : ν) :
    (fs.unlink n).read m = if m = n then none else fs.read m := by
  rw [read, find_unlink]
  split_ifs <;> rfl

theorem find_rename (fs : Fs ν β) {a b : ν} {i : ℕ} (ha : fs.find a = some i) (m : ν) :
    (fs.rename a b).find m = if m = b then some i else if m = a then none else fs.find m := by
  unfold rename
  split
  · next h => simp [ha] at h
  · next j hj =>
    obtain rfl : i = j := Option.some.inj (ha.symm.trans hj)
    by_cases hab : a = b
    · subst hab
      by_cases hm : m = a
      · simp [hm, ha]
      · simp [hm]
    · rw [dif_neg hab]
      simp only [find]
      by_cases hm : m = b
      · subst hm; simp
      · rw [if_neg hm, AList.lookup_insert_ne hm]
        by_cases hma : m = a
        · subst hma; simp
        · rw [if_neg hma, AList.lookup_erase_ne hma]

@[simp] theorem content_rename (fs : Fs ν β) (a b : ν) : (fs.rename a b).content = fs.content := by
  unfold rename
  split
  · rfl
  · split_ifs <;> rfl

@[simp] theorem next_rename (fs : Fs ν β) (a b : ν) : (fs.rename a b).next = fs.next := by
  unfold rename
  split
  · rfl
  · split_ifs <;> rfl

/-- After a rename the new name reads what the old one did, the old one nothing, and every other
name what it did. -/
theorem read_rename (fs : Fs ν β) {a b : ν} (ha : fs.find a ≠ none) (m : ν) :
    (fs.rename a b).read m = if m = b then fs.read a else if m = a then none else fs.read m := by
  obtain ⟨i, hi⟩ := Option.ne_none_iff_exists'.mp ha
  rw [read, find_rename fs hi, content_rename]
  split_ifs
  · rw [read, hi]
  · rfl
  · rfl

theorem rename_of_find_eq_none {fs : Fs ν β} {a : ν} (ha : fs.find a = none) (b : ν) :
    fs.rename a b = fs := by
  unfold rename
  split
  · rfl
  · next i hi => simp [ha] at hi

/-! ## Frames -/

/-- Every file whose name is not in `N` keeps its name and its content. -/
def Keeps (N : ν → Prop) (fs fs' : Fs ν β) : Prop :=
  ∀ n i, ¬ N n → fs.find n = some i → fs'.find n = some i ∧ fs'.content i = fs.content i

variable {N : ν → Prop} {fs fs' fs'' : Fs ν β}

theorem Keeps.refl (N : ν → Prop) (fs : Fs ν β) : Keeps N fs fs := fun _ _ _ h => ⟨h, rfl⟩

theorem Keeps.trans (h : Keeps N fs fs') (h' : Keeps N fs' fs'') : Keeps N fs fs'' := by
  intro n i hn hi
  obtain ⟨h1, h2⟩ := h n i hn hi
  obtain ⟨h3, h4⟩ := h' n i hn h1
  exact ⟨h3, h4.trans h2⟩

theorem Keeps.mono {M : ν → Prop} (h : Keeps N fs fs') (hNM : ∀ n, N n → M n) : Keeps M fs fs' :=
  fun n i hn hi => h n i (fun hN => hn (hNM n hN)) hi

theorem keeps_unlink (fs : Fs ν β) {n : ν} (hn : N n ∨ fs.find n = none) :
    Keeps N fs (fs.unlink n) := by
  intro m i hm hi
  have hmn : m ≠ n := by
    rintro rfl
    rcases hn with h | h
    · exact hm h
    · rw [hi] at h
      cases h
  rw [find_unlink, if_neg hmn]
  exact ⟨hi, rfl⟩

theorem keeps_create (fs : Fs ν β) {n : ν} (b : β) (hn : N n ∨ fs.find n = none) :
    Keeps N fs (fs.create n b).1 := by
  intro m i hm hi
  have hmn : m ≠ n := by
    rintro rfl
    rcases hn with h | h
    · exact hm h
    · rw [hi] at h
      cases h
  have hfind : (fs.create n b).1.find m = some i := by rw [find_create, if_neg hmn, hi]
  refine ⟨hfind, ?_⟩
  rw [content_create, if_neg]
  rintro rfl
  have hcreated : (fs.create n b).1.find n = some (fs.create n b).2 := by rw [find_create, if_pos rfl]
  exact hmn ((fs.create n b).1.inj m n _ hfind hcreated)

theorem keeps_write (fs : Fs ν β) {i : ℕ} (b : β) (hi : ∀ n, fs.find n = some i → N n) :
    Keeps N fs (fs.write i b) := by
  intro m j hm hj
  refine ⟨hj, Function.update_of_ne ?_ _ _⟩
  rintro rfl
  exact hm (hi m hj)

/-- Renaming a name that is in `N` or leads nowhere to one that is in `N` or leads nowhere. -/
theorem keeps_rename (fs : Fs ν β) {a b : ν} (ha : N a ∨ fs.find a = none)
    (hb : fs.find a ≠ none → N b ∨ fs.find b = none) : Keeps N fs (fs.rename a b) := by
  cases h : fs.find a with
  | none =>
    rw [rename_of_find_eq_none h]
    exact Keeps.refl N fs
  | some j =>
    intro m i hm hi
    have hma : m ≠ a := by
      rintro rfl
      rcases ha with h' | h'
      · exact hm h'
      · rw [h] at h'
        cases h'
    have hmb : m ≠ b := by
      rintro rfl
      rcases hb (by rw [h]; simp) with h' | h'
      · exact hm h'
      · rw [hi] at h'
        cases h'
    rw [find_rename fs h, if_neg hmb, if_neg hma, content_rename]
    exact ⟨hi, rfl⟩

end Fs

end Lib
