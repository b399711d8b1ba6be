import Mathlib.Data.List.Infix
import Mathlib.Tactic.Common

/-!
# Walks in a tree of directories

A place in a tree of directories is the list of the names that lead to it from the root, and a path
is a list of steps: to stay, to go up, or to go to a name. Whether a walk from a place ends below it
can be read from the steps alone, unless they go up past the place and come back to it by its own
name: `prefix_walk` and `not_prefix_walk`.
-/

namespace Lib

/-- A component of a path. -/
inductive PathStep (ν : Type*)
  | here
  | up
  | name (n : ν)
  deriving DecidableEq

namespace PathStep

variable {ν : Type*}

/-- Where a step leads. -/
def follow (place : List ν) : PathStep ν → List ν
  | here => place
  | up => place.dropLast
  | name n => place ++ [n]

/-- Where a list of steps leads. -/
def walk (place : List ν) (cs : List (PathStep ν)) : List ν := cs.foldl follow place

@[simp] theorem walk_nil (place : List ν) : walk place [] = place := rfl

@[simp] theorem walk_cons (place : List ν) (c : PathStep ν) (cs : List (PathStep ν)) :
    walk place (c :: cs) = walk (follow place c) cs := rfl

theorem walk_append (place : List ν) (cs cs' : List (PathStep ν)) :
    walk place (cs ++ cs') = walk (walk place cs) cs' := List.foldl_append

/-- Whether a walk that begins `d` levels below a place never goes above it. -/
def staysBelow : ℕ → List (PathStep ν) → Bool
  | _, [] => true
  | d, here :: cs => staysBelow d cs
  | 0, up :: _ => false
  | d + 1, up :: cs => staysBelow d cs
  | d, name _ :: cs => staysBelow (d + 1) cs

theorem up_mem_of_staysBelow {d : ℕ} {cs : List (PathStep ν)} (h : staysBelow d cs = false) :
    up ∈ cs := by
  induction cs generalizing d with
  | nil => exact Bool.noConfusion h
  | cons c cs ih =>
    cases c with
    | here => exact List.mem_cons_of_mem _ (ih h)
    | up => exact List.mem_cons_self
    | name n => exact List.mem_cons_of_mem _ (ih h)

theorem staysBelow_mono {d : ℕ} {cs : List (PathStep ν)} (h : staysBelow d cs = true) {e : ℕ}
    (he : d ≤ e) : staysBelow e cs = true := by
  induction cs generalizing d e with
  | nil => rw [staysBelow]
  | cons c cs ih =>
    cases c with
    | here =>
      rw [staysBelow] at h ⊢
      exact ih h he
    | up =>
      cases d with
      | zero => exact Bool.noConfusion h
      | succ d =>
        obtain ⟨e, rfl⟩ : ∃ k, e = k + 1 := ⟨e - 1, by omega⟩
        rw [staysBelow] at h ⊢
        exact ih h (by omega)
    | name n =>
      rw [staysBelow] at h ⊢
      exact ih h (by omega)

theorem staysBelow_of_append {d : ℕ} {cs cs' : List (PathStep ν)}
    (h : staysBelow d (cs ++ cs') = true) : staysBelow d cs = true := by
  induction cs generalizing d with
  | nil => rw [staysBelow]
  | cons c cs ih =>
    cases c with
    | here =>
      rw [List.cons_append, staysBelow] at h
      rw [staysBelow]
      exact ih h
    | up =>
      cases d with
      | zero => exact Bool.noConfusion h
      | succ d =>
        rw [List.cons_append, staysBelow] at h
        rw [staysBelow]
        exact ih h
    | name n =>
      rw [List.cons_append, staysBelow] at h
      rw [staysBelow]
      exact ih h

/-- A walk that stays below, and then one that does from wherever it begins. -/
theorem staysBelow_append {d : ℕ} {cs cs' : List (PathStep ν)} (h : staysBelow d cs = true)
    (h' : staysBelow 0 cs' = true) : staysBelow d (cs ++ cs') = true := by
  induction cs generalizing d with
  | nil => exact staysBelow_mono h' (Nat.zero_le d)
  | cons c cs ih =>
    cases c with
    | here =>
      rw [staysBelow] at h
      rw [List.cons_append, staysBelow]
      exact ih h
    | up =>
      cases d with
      | zero => exact Bool.noConfusion h
      | succ d =>
        rw [staysBelow] at h
        rw [List.cons_append, staysBelow]
        exact ih h
    | name n =>
      rw [staysBelow] at h
      rw [List.cons_append, staysBelow]
      exact ih h

/-- A walk that stays below a place ends below it. -/
theorem prefix_walk {place t : List ν} {cs : List (PathStep ν)}
    (h : staysBelow t.length cs = true) : place <+: walk (place ++ t) cs := by
  induction cs generalizing t with
  | nil => exact List.prefix_append _ _
  | cons c cs ih =>
    cases c with
    | here => exact ih h
    | up =>
      rcases List.eq_nil_or_concat t with rfl | ⟨t, n, rfl⟩
      · exact Bool.noConfusion h
      · rw [List.concat_eq_append, List.length_append, List.length_singleton, staysBelow] at h
        have hup : follow (place ++ t.concat n) up = place ++ t := by
          rw [follow, List.concat_eq_append, ← List.append_assoc, List.dropLast_concat]
        rw [walk_cons, hup]
        exact ih h
    | name n =>
      rw [staysBelow] at h
      rw [walk_cons, follow, List.append_assoc]
      exact ih (by simpa using h)

/-- Who is not below a place does not come to it but by its own name. -/
theorem not_prefix_walk_of_not_prefix {above place : List ν} {n : ν} {cs : List (PathStep ν)}
    (hcs : name n ∉ cs) (h : ¬above ++ [n] <+: place) : ¬above ++ [n] <+: walk place cs := by
  induction cs generalizing place with
  | nil => exact h
  | cons c cs ih =>
    obtain ⟨hc, hcs⟩ := not_or.1 (mt List.mem_cons.2 hcs)
    refine ih hcs ?_
    cases c with
    | here => exact h
    | up => exact fun hup => h (hup.trans (List.dropLast_prefix _))
    | name m =>
      intro hm
      -- a step to a name makes the place longer by that name only
      rw [follow] at hm
      rcases List.prefix_concat_iff.1 hm with heq | hpre
      · exact hc (congrArg name (List.singleton_inj.1 (List.append_inj_right' heq rfl)))
      · exact h hpre

/-- A walk that goes above a place, and not back to it by its own name, does not end below it. -/
theorem not_prefix_walk {above t : List ν} {n : ν} {cs : List (PathStep ν)} (hcs : name n ∉ cs)
    (h : staysBelow t.length cs = false) : ¬above ++ [n] <+: walk (above ++ [n] ++ t) cs := by
  induction cs generalizing t with
  | nil => exact Bool.noConfusion h
  | cons c cs ih =>
    replace hcs : name n ∉ cs := fun hmem => hcs (List.mem_cons_of_mem _ hmem)
    cases c with
    | here => exact ih hcs h
    | up =>
      rcases List.eq_nil_or_concat t with rfl | ⟨t, m, rfl⟩
      · -- here the walk leaves
        rw [walk_cons, follow, List.append_nil, List.dropLast_concat]
        refine not_prefix_walk_of_not_prefix hcs fun hpre => ?_
        have hlen := hpre.length_le
        rw [List.length_append, List.length_singleton] at hlen
        omega
      · rw [List.concat_eq_append, List.length_append, List.length_singleton, staysBelow] at h
        have hup : follow (above ++ [n] ++ t.concat m) up = above ++ [n] ++ t := by
          rw [follow, List.concat_eq_append, ← List.append_assoc, List.dropLast_concat]
        rw [walk_cons, hup]
        exact ih hcs h
    | name m =>
      rw [staysBelow] at h
      rw [walk_cons, follow, List.append_assoc]
      exact ih hcs (by simpa using h)

end PathStep

end Lib
