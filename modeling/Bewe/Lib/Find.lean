import Mathlib.Data.List.Infix
import Mathlib.Tactic

/-!
# Searching for a quoted key

A flat scan of a text for a key in quotes. Between two quotes next to each other there may stand a
key, a value, or what separates them, and `findAfter_enclosed` goes on from one quote to the next. A
value in which quotes are escaped is found where it is the key itself or ends in a quote and the key
(`findAfter_flatMap`), because the quote that ends it closes both. A search for the key and the
separator behind it finds no value, and the members before the key are passed over
(`findAfter_pairsText`, `findAfter_string`).
-/

namespace Lib

variable {α : Type*} {q e : α} {key : List α} {esc : α → List α}

/-- Texts without quotes that agree up to the quote behind them are the same. -/
theorem eq_of_append_cons {a b s t : List α} (ha : q ∉ a) (hb : q ∉ b)
    (h : a ++ q :: s = b ++ q :: t) : a = b := by
  induction a generalizing b with
  | nil =>
    cases b with
    | nil => rfl
    | cons d b => simp [(List.cons.inj h).1] at hb
  | cons c a ih =>
    cases b with
    | nil => simp [(List.cons.inj h).1] at ha
    | cons d b =>
      obtain ⟨rfl, hrest⟩ := List.cons.inj h
      rw [ih (List.not_mem_of_not_mem_cons ha) (List.not_mem_of_not_mem_cons hb) hrest]

/-! ## Values with escapes -/

/-- A way to write the bytes of a value: a quote is written with the escape byte `e` before it,
other bytes without a quote, and what is not written as itself with an escape byte. -/
structure Escape (q e : α) (esc : α → List α) : Prop where
  ne : e ≠ q
  quote : esc q = [e, q]
  other : ∀ c ≠ q, q ∉ esc c
  plain : ∀ c, esc c = [c] ∨ e ∈ esc c

theorem Escape.not_mem_flatMap (h : Escape q e esc) {w : List α} (hw : q ∉ w) :
    q ∉ w.flatMap esc := by
  rw [List.mem_flatMap]
  rintro ⟨c, hc, hq⟩
  exact h.other c (fun hcq => hw (hcq ▸ hc)) hq

theorem Escape.flatMap_eq_self (h : Escape q e esc) {w : List α} (he : e ∉ w.flatMap esc) :
    w.flatMap esc = w := by
  induction w with
  | nil => rfl
  | cons c w ih =>
    rw [List.flatMap_cons, List.mem_append, not_or] at he
    rw [List.flatMap_cons, (h.plain c).resolve_right he.1, ih he.2, List.singleton_append]

theorem Escape.flatMap_eq_iff (h : Escape q e esc) (hkey : key.flatMap esc = key) (he : e ∉ key)
    {w : List α} : w.flatMap esc = key ↔ w = key := by
  refine ⟨fun heq => ?_, fun heq => heq ▸ hkey⟩
  have hself := h.flatMap_eq_self (heq ▸ he)
  exact hself.symm.trans heq

/-- Whether a key is found within a value and the quotes around it. -/
def Mentions (q : α) (key v : List α) : Prop := v = key ∨ q :: key <:+ v

theorem mentions_append_cons (hq : q ∉ key) (w v : List α) :
    Mentions q key (w ++ q :: v) ↔ Mentions q key v := by
  have hne : ∀ w : List α, key ≠ w ++ q :: v := by
    rintro w rfl
    simp at hq
  rw [Mentions, or_iff_right (hne w).symm]
  induction w with
  | nil =>
    rw [List.nil_append, List.suffix_cons_iff, List.cons.injEq, eq_comm (a := key), Mentions]
    simp
  | cons c w ih =>
    have hcons : ¬ (q = c ∧ key = w ++ q :: v) := fun h => hne w h.2
    rw [List.cons_append, List.suffix_cons_iff, List.cons.injEq, or_iff_right hcons]
    exact ih

/-! ## Searching -/

variable [DecidableEq α]

instance (q : α) (key v : List α) : Decidable (Mentions q key v) :=
  inferInstanceAs (Decidable (v = key ∨ q :: key <:+ v))

/-- What follows the first occurrence of a text in another. -/
def findAfter (sub : List α) : List α → Option (List α)
  | [] => if sub = [] then some [] else none
  | c :: t => if sub <+: c :: t then some ((c :: t).drop sub.length) else findAfter sub t

/-- A text in quotes. -/
def enclosed (q : α) (key : List α) : List α := q :: (key ++ [q])

/-- A text within which no occurrence begins, whatever follows it. -/
def Clashes (sub a : List α) : Prop := ∀ s ∈ a.tails, s ≠ [] → ¬ s <+: sub ∧ ¬ sub <+: s

instance (sub a : List α) : Decidable (Clashes sub a) :=
  inferInstanceAs (Decidable (∀ s ∈ a.tails, s ≠ [] → ¬ s <+: sub ∧ ¬ sub <+: s))

theorem findAfter_of_clashes {sub a : List α} (h : Clashes sub a) (t : List α) :
    findAfter sub (a ++ t) = findAfter sub t := by
  induction a with
  | nil => rfl
  | cons c a ih =>
    obtain ⟨h1, h2⟩ := h (c :: a) (by simp) (List.cons_ne_nil c a)
    have hrest : Clashes sub a := fun s hs => h s (by simp [hs])
    rw [List.cons_append, findAfter, if_neg, ih hrest]
    intro hsub
    rcases List.prefix_or_prefix_of_prefix (List.prefix_append (c :: a) t) hsub with hp | hp
    · exact h1 hp
    · exact h2 hp

theorem findAfter_self (sub t : List α) : findAfter sub (sub ++ t) = some t := by
  cases h : sub ++ t with
  | nil =>
    obtain ⟨rfl, rfl⟩ := List.append_eq_nil_iff.mp h
    rfl
  | cons c u => rw [findAfter, ← h, if_pos (List.prefix_append sub t), List.drop_left]

theorem findAfter_append {a : List α} (ha : q ∉ a) (sub t : List α) :
    findAfter (q :: sub) (a ++ t) = findAfter (q :: sub) t := by
  induction a with
  | nil => rfl
  | cons c a ih =>
    rw [List.mem_cons, not_or] at ha
    rw [List.cons_append, findAfter, if_neg, ih ha.2]
    rintro ⟨u, hu⟩
    exact ha.1 (List.cons.inj hu).1

theorem findAfter_enclosed (hkey : q ∉ key) {b : List α} (hb : q ∉ b) (t : List α) :
    findAfter (enclosed q key) (q :: (b ++ q :: t)) =
      if b = key then some t else findAfter (enclosed q key) (q :: t) := by
  split_ifs with h
  · subst h
    have hsplit : q :: (b ++ q :: t) = enclosed q b ++ t := by simp [enclosed]
    rw [findAfter, if_pos (hsplit ▸ List.prefix_append _ _), hsplit, List.drop_left]
  · rw [findAfter, if_neg, enclosed, findAfter_append hb]
    rintro ⟨u, hu⟩
    have hrest : key ++ q :: u = b ++ q :: t := by simpa [enclosed] using hu
    exact h (eq_of_append_cons hkey hb hrest).symm

/-- A key is found in what a value was written as, and the quotes around it, exactly where the value
mentions it. -/
theorem findAfter_flatMap (h : Escape q e esc) (hkey : key.flatMap esc = key) (hq : q ∉ key)
    (he : e ∉ key) (v t : List α) :
    findAfter (enclosed q key) (q :: (v.flatMap esc ++ q :: t)) =
      if Mentions q key v then some t else findAfter (enclosed q key) (q :: t) := by
  induction hn : v.length using Nat.strong_induction_on generalizing v with
  | _ n ih =>
    by_cases hv : q ∈ v
    · -- the first quote of the value ends a text that the escape byte keeps from being the key
      obtain ⟨w, v', rfl, hw⟩ := List.eq_append_cons_of_mem hv
      have hsplit : q :: ((w ++ q :: v').flatMap esc ++ q :: t) =
          q :: ((w.flatMap esc ++ [e]) ++ q :: (v'.flatMap esc ++ q :: t)) := by
        simp [h.quote]
      have hfirst : q ∉ w.flatMap esc ++ [e] := by
        simpa [h.ne.symm] using h.not_mem_flatMap hw
      have hne : w.flatMap esc ++ [e] ≠ key := by
        rintro rfl
        simp at he
      rw [hsplit, findAfter_enclosed hq hfirst, if_neg hne,
        ih v'.length (by simp [← hn]; omega) v' rfl]
      simp only [mentions_append_cons hq]
    · rw [findAfter_enclosed hq (h.not_mem_flatMap hv)]
      have hmentions : Mentions q key v ↔ v.flatMap esc = key := by
        rw [h.flatMap_eq_iff hkey he]
        exact or_iff_left fun hsuf => hv (hsuf.subset (by simp))
      simp only [hmentions]

/-! ## Members -/

section

variable {s z : α} {u : List α}

/-- From one quote to the next there is not the key with the separator behind it. -/
theorem findAfter_segment (hkey : q ∉ key) {b r : List α} (hb : q ∉ b)
    (h : b = key → r.head? ≠ some s) :
    findAfter (q :: (key ++ q :: s :: u)) (q :: (b ++ q :: r)) =
      findAfter (q :: (key ++ q :: s :: u)) (q :: r) := by
  rw [findAfter, if_neg, findAfter_append hb]
  rintro ⟨w, hw⟩
  have hrest : key ++ q :: (s :: u ++ w) = b ++ q :: r := by simpa using hw
  obtain rfl := eq_of_append_cons hkey hb hrest
  have htail : s :: u ++ w = r := by simpa using hrest
  exact h rfl (by rw [← htail]; rfl)

/-- A quote before a byte that the key does not have does not begin it. -/
theorem findAfter_quote {c : α} (hkey : c ∉ key) (hc : c ≠ q) (r : List α) :
    findAfter (q :: (key ++ q :: u)) (q :: c :: r) = findAfter (q :: (key ++ q :: u)) r := by
  have hne : ¬ q :: (key ++ q :: u) <+: q :: c :: r := by
    rw [List.prefix_cons_inj]
    rintro ⟨w, hw⟩
    cases key with
    | nil => exact hc (List.cons.inj hw).1.symm
    | cons d key => exact hkey ((List.cons.inj hw).1 ▸ List.mem_cons_self)
  have hmem : q ∉ [c] := fun h => hc (List.mem_singleton.1 h).symm
  rw [findAfter, if_neg hne]
  exact findAfter_append hmem _ r

/-- Members: a key in quotes, the separator `s`, a value without quotes, and `z` behind it. -/
def pairsText (q s z : α) (ms : List (List α × List α)) : List α :=
  ms.flatMap fun m => q :: (m.1 ++ q :: s :: (m.2 ++ [z]))

theorem findAfter_member (hkey : q ∉ key) (hs : s ∉ key) (hsq : s ≠ q) {k v : List α} (hk : q ∉ k)
    (hne : k ≠ key) (hv : q ∉ v) (t : List α) :
    findAfter (q :: (key ++ q :: s :: u)) (q :: (k ++ q :: s :: (v ++ t))) =
      findAfter (q :: (key ++ q :: s :: u)) t := by
  rw [findAfter_segment hkey hk fun h => absurd h hne, findAfter_quote hs hsq, findAfter_append hv]

theorem findAfter_pairsText (hkey : q ∉ key) (hs : s ∉ key) (hsq : s ≠ q) (hzq : z ≠ q)
    {ms : List (List α × List α)} (h : ∀ m ∈ ms, q ∉ m.1 ∧ q ∉ m.2 ∧ m.1 ≠ key) (t : List α) :
    findAfter (q :: (key ++ q :: s :: u)) (pairsText q s z ms ++ t) =
      findAfter (q :: (key ++ q :: s :: u)) t := by
  induction ms with
  | nil => rfl
  | cons m ms ih =>
    obtain ⟨hk, hv, hne⟩ := h m List.mem_cons_self
    have hvz : q ∉ m.2 ++ [z] := by simp [hv, hzq.symm]
    have hsplit : pairsText q s z (m :: ms) ++ t =
        q :: (m.1 ++ q :: s :: (m.2 ++ [z] ++ (pairsText q s z ms ++ t))) := by
      simp [pairsText]
    rw [hsplit, findAfter_member hkey hs hsq hk hne hvz]
    exact ih fun m' hm' => h m' (List.mem_cons_of_mem _ hm')

theorem findAfter_lookup (hkey : q ∉ key) (hs : s ∉ key) (hsq : s ≠ q) (hzq : z ≠ q)
    {ms : List (List α × List α)} (h : ∀ m ∈ ms, q ∉ m.1 ∧ q ∉ m.2) {v : List α}
    (hv : ms.lookup key = some v) (t : List α) :
    ∃ r, findAfter (q :: (key ++ [q, s])) (pairsText q s z ms ++ t) = some (v ++ z :: r) := by
  obtain ⟨pre, post, rfl, hpre⟩ := List.lookup_eq_some_iff.1 hv
  have hsplit : pairsText q s z (pre ++ (key, v) :: post) ++ t = pairsText q s z pre ++
      (q :: (key ++ [q, s]) ++ (v ++ z :: (pairsText q s z post ++ t))) := by
    simp [pairsText]
  refine ⟨pairsText q s z post ++ t, ?_⟩
  rw [hsplit, findAfter_pairsText hkey hs hsq hzq, findAfter_self]
  intro m hm
  obtain ⟨hk, hval⟩ := h m (List.mem_append_left _ hm)
  exact ⟨hk, hval, fun heq => by simpa [heq] using hpre m hm⟩

/-- A value in quotes is passed over, since what ends it is not followed by the separator. -/
theorem findAfter_string (h : Escape q e esc) (hq : q ∉ key) (he : e ∉ key) (hz : z ∉ key)
    (hzs : z ≠ s) (hzq : z ≠ q) (v t : List α) :
    findAfter (q :: (key ++ q :: s :: u)) (q :: (v.flatMap esc ++ q :: z :: t)) =
      findAfter (q :: (key ++ q :: s :: u)) t := by
  induction hn : v.length using Nat.strong_induction_on generalizing v with
  | _ n ih =>
    by_cases hv : q ∈ v
    · -- the first quote of the value ends a text that the escape byte keeps from being the key
      obtain ⟨w, v', rfl, hw⟩ := List.eq_append_cons_of_mem hv
      have hsplit : q :: ((w ++ q :: v').flatMap esc ++ q :: z :: t) =
          q :: ((w.flatMap esc ++ [e]) ++ q :: (v'.flatMap esc ++ q :: z :: t)) := by
        simp [h.quote]
      have hfirst : q ∉ w.flatMap esc ++ [e] := by
        simpa [h.ne.symm] using h.not_mem_flatMap hw
      have hne : w.flatMap esc ++ [e] ≠ key := by
        rintro rfl
        simp at he
      rw [hsplit, findAfter_segment hq hfirst fun heq => absurd heq hne,
        ih v'.length (by simp [← hn]; omega) v' rfl]
    · rw [findAfter_segment hq (h.not_mem_flatMap hv) fun _ => by simpa using hzs,
        findAfter_quote hz hzq]

end

end Lib
