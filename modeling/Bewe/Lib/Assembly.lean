import Mathlib.Data.List.Basic
import Mathlib.Data.Nat.Init
import Mathlib.Order.Lattice

/-!
# Assembling numbered parts

A text comes in parts that carry their number and how many there are, and the text is shown once all of
them are there. Parts that nobody completes stay, so a receiver that begins in the middle of a version
has parts left over when the next one begins. `assembled_iff` says that what is shown is always one
version, and after the last part of a version that one, exactly if the parts left over do not show in
the versions that they complete (`Agrees`).
-/

namespace Lib.Assembly

/-- A message about a text: it is gone, or a part of it with its number. -/
inductive PartMsg (τ : Type*)
  | clear
  | part (i n : ℕ) (t : τ)
  deriving DecidableEq

/-- The parts that are there, and what is shown. -/
structure Slot (τ ω : Type*) where
  parts : ℕ → Option τ := fun _ => none
  shown : Option ω := none

variable {τ ω : Type*}

/-- The first `n` parts, if none is missing. -/
def gather (parts : ℕ → Option τ) (n : ℕ) : Option (List τ) := (List.range n).mapM parts

theorem mapM_eq_some {α : Type*} {f : α → Option τ} {g : α → τ} {l : List α}
    (h : ∀ a ∈ l, f a = some (g a)) : l.mapM f = some (l.map g) := by
  induction l with
  | nil => rfl
  | cons a l ih =>
    rw [List.mapM_cons, h a List.mem_cons_self, ih fun b hb => h b (List.mem_cons_of_mem _ hb)]
    rfl

theorem mapM_eq_none {α : Type*} {f : α → Option τ} {l : List α} {a : α} (ha : a ∈ l)
    (h : f a = none) : l.mapM f = none := by
  induction l with
  | nil => cases ha
  | cons b l ih =>
    rw [List.mapM_cons]
    rcases List.mem_cons.1 ha with rfl | ha
    · rw [h]
      rfl
    · rw [ih ha]
      cases f b <;> rfl

theorem mapM_congr {α : Type*} {f g : α → Option τ} {l : List α} (h : ∀ a ∈ l, f a = g a) :
    l.mapM f = l.mapM g := by
  induction l with
  | nil => rfl
  | cons a l ih =>
    rw [List.mapM_cons, List.mapM_cons, h a List.mem_cons_self,
      ih fun b hb => h b (List.mem_cons_of_mem _ hb)]

theorem gather_congr {parts parts' : ℕ → Option τ} {n : ℕ} (h : ∀ i < n, parts i = parts' i) :
    gather parts n = gather parts' n :=
  mapM_congr fun i hi => h i (List.mem_range.1 hi)

theorem gather_eq_some {parts : ℕ → Option τ} {n : ℕ} {g : ℕ → τ}
    (h : ∀ i < n, parts i = some (g i)) : gather parts n = some ((List.range n).map g) :=
  mapM_eq_some fun i hi => h i (List.mem_range.1 hi)

theorem gather_eq_none {parts : ℕ → Option τ} {n i : ℕ} (hi : i < n) (h : parts i = none) :
    gather parts n = none :=
  mapM_eq_none (List.mem_range.2 hi) h

/-- A message arrives. What is built of the parts is shown, if anything is. -/
def Slot.next (build : List τ → Option ω) (s : Slot τ ω) : PartMsg τ → Slot τ ω
  | .clear => {}
  | .part i n t =>
    let parts := Function.update s.parts i (some t)
    match gather parts n with
    | none => { s with parts := parts }
    | some ts => { parts := fun _ => none, shown := (build ts).or s.shown }

/-! ## Versions -/

/-- A version of the text: its parts, each of which is `Good`, and what is built of them. -/
structure Version (build : List τ → Option ω) (Good : τ → Prop) where
  n : ℕ
  part : ℕ → τ
  whole : ω
  pos : 0 < n
  good : ∀ i < n, Good (part i)
  build_eq : build ((List.range n).map part) = some whole

/-- A version of which a receiver has missed the first parts. -/
structure Late (build : List τ → Option ω) (Good : τ → Prop) where
  version : Version build Good
  missed : ℕ
  pos : 0 < missed

/-- What is sent: a version, or that the text is gone. -/
inductive Sent (build : List τ → Option ω) (Good : τ → Prop)
  | version (v : Version build Good)
  | clear

variable {build : List τ → Option ω} {Good : τ → Prop}

/-- The messages of a version from the `k`-th to before the `m`-th. -/
def Version.between (v : Version build Good) (k m : ℕ) : List (PartMsg τ) :=
  (List.range' k (m - k)).map fun i => .part i v.n (v.part i)

/-- The messages of a version. -/
def Version.msgs (v : Version build Good) : List (PartMsg τ) := v.between 0 v.n

def Late.msgs (l : Late build Good) : List (PartMsg τ) := l.version.between l.missed l.version.n

def Sent.msgs : Sent build Good → List (PartMsg τ)
  | .version v => v.msgs
  | .clear => [.clear]

/-- The parts that are left over complete a version before its time. -/
def Late.Crosses (l : Late build Good) (v : Version build Good) : Prop :=
  l.missed < v.n ∧ v.n ≤ l.version.n

instance (l : Late build Good) (v : Version build Good) : Decidable (l.Crosses v) :=
  inferInstanceAs (Decidable (_ ∧ _))

/-- The first parts of a version, and the parts that are left over. -/
def Late.mixed (l : Late build Good) (v : Version build Good) (i : ℕ) : τ :=
  if i < l.missed then v.part i else l.version.part i

/-- What is left over of parts after a version. -/
def leftAfter (l : Option (Late build Good)) (v : Version build Good) : Option (Late build Good) :=
  l.bind fun l => if l.Crosses v then some { version := v, missed := l.missed, pos := l.pos } else none

/-- Whatever is left over of parts shows as the version does that it completes. -/
def Agrees : Option (Late build Good) → List (Sent build Good) → Prop
  | _, [] => True
  | _, .clear :: sent => Agrees none sent
  | l, .version v :: sent =>
    (∀ r ∈ l, r.Crosses v → build ((List.range v.n).map (r.mixed v)) = some v.whole) ∧
      Agrees (leftAfter l v) sent

/-- The parts that are left over. -/
def leftOver (l : Option (Late build Good)) (i : ℕ) : Option τ :=
  l.bind fun l => if l.missed ≤ i ∧ i < l.version.n then some (l.version.part i) else none

/-! ## Runs -/

theorem between_succ (v : Version build Good) {k m : ℕ} (h : k ≤ m) :
    v.between k (m + 1) = v.between k m ++ [.part m v.n (v.part m)] := by
  have hlen : m + 1 - k = m - k + 1 := by omega
  have hlast : k + 1 * (m - k) = m := by omega
  rw [Version.between, hlen, List.range'_concat, hlast, List.map_append]
  rfl

theorem between_append (v : Version build Good) {k m n : ℕ} (hkm : k ≤ m) (hmn : m ≤ n) :
    v.between k m ++ v.between m n = v.between k n := by
  have hlen : n - k = m - k + (n - m) := by omega
  have hmid : k + 1 * (m - k) = m := by omega
  rw [Version.between, Version.between, Version.between, hlen, ← List.range'_append, hmid,
    List.map_append]

/-- The parts that are there are those left over. -/
def Holding (l : Option (Late build Good)) (s : Slot τ ω) : Prop := ∀ i, s.parts i = leftOver l i

theorem holding_clear (s : Slot τ ω) : Holding (none : Option (Late build Good)) (s.next build .clear) :=
  fun _ => rfl

theorem next_of_missing {s : Slot τ ω} {i n j : ℕ} {t : τ} (hj : j < n) (hne : j ≠ i)
    (hnone : s.parts j = none) :
    s.next build (.part i n t) = { s with parts := Function.update s.parts i (some t) } := by
  have hgather : gather (Function.update s.parts i (some t)) n = none :=
    gather_eq_none hj (by rw [Function.update_of_ne hne, hnone])
  rw [Slot.next, hgather]

theorem next_of_all {s : Slot τ ω} {i n : ℕ} {t : τ} {g : ℕ → τ} (hi : g i = t)
    (hall : ∀ j < n, j ≠ i → s.parts j = some (g j)) :
    s.next build (.part i n t) =
      { parts := fun _ => none, shown := (build ((List.range n).map g)).or s.shown } := by
  have hgather : gather (Function.update s.parts i (some t)) n = some ((List.range n).map g) := by
    refine gather_eq_some fun j hj => ?_
    by_cases hji : j = i
    · rw [hji, Function.update_self, hi]
    · rw [Function.update_of_ne hji, hall j hj hji]
  rw [Slot.next, hgather]

theorem foldl_between (v : Version build Good) (s : Slot τ ω) {j k m : ℕ} (hkm : k ≤ m)
    (hj : j < v.n) (hnone : s.parts j = none) (hout : j < k ∨ m ≤ j) :
    (v.between k m).foldl (Slot.next build) s =
      { parts := fun i => if k ≤ i ∧ i < m then some (v.part i) else s.parts i,
        shown := s.shown } := by
  induction m, hkm using Nat.le_induction with
  | base =>
    have hnil : v.between k k = [] := by rw [Version.between, Nat.sub_self]; rfl
    have hparts : (fun i => if k ≤ i ∧ i < k then some (v.part i) else s.parts i) = s.parts := by
      funext i
      rw [if_neg (by omega)]
    rw [hnil, List.foldl_nil, hparts]
  | succ m hkm ih =>
    rw [between_succ v hkm, List.foldl_append, ih (by omega), List.foldl_cons, List.foldl_nil,
      next_of_missing hj (by omega) (by dsimp only; rw [if_neg (by omega), hnone])]
    congr 1
    funext i
    by_cases hi : i = m
    · rw [hi, Function.update_self, if_pos (by omega)]
    · rw [Function.update_of_ne hi]
      dsimp only
      by_cases hin : k ≤ i ∧ i < m
      · rw [if_pos hin, if_pos (by omega)]
      · rw [if_neg hin, if_neg (by omega)]

variable {l : Option (Late build Good)} {s : Slot τ ω} {v : Version build Good}

theorem parts_last (h : Holding l s) (hl : ∀ r ∈ l, ¬ r.Crosses v) : s.parts (v.n - 1) = none := by
  rw [h]
  cases l with
  | none => rfl
  | some r =>
    have hpos := v.pos
    have hno := hl r rfl
    rw [Late.Crosses] at hno
    rw [leftOver, Option.bind_some, if_neg (by omega)]

theorem foldl_msgs_of_clean (h : Holding l s) (hl : ∀ r ∈ l, ¬ r.Crosses v) :
    v.msgs.foldl (Slot.next build) s = { parts := fun _ => none, shown := some v.whole } := by
  have hpos := v.pos
  have hsplit : v.msgs = v.between 0 (v.n - 1) ++ [.part (v.n - 1) v.n (v.part (v.n - 1))] := by
    rw [← between_succ v (Nat.zero_le _), Version.msgs]
    congr 1
    omega
  have hlast := parts_last h hl
  rw [hsplit, List.foldl_append, foldl_between v s (Nat.zero_le _) (by omega) hlast
    (Or.inr le_rfl), List.foldl_cons, List.foldl_nil, next_of_all (g := v.part) rfl, v.build_eq]
  · rfl
  · intro j hj hne
    dsimp only
    rw [if_pos (by omega)]

/-- A version that the parts left over complete: what is shown is mixed, and its own parts from there
on are left over. -/
theorem foldl_between_of_crosses {r : Late build Good} (h : Holding (some r) s) (hc : r.Crosses v)
    {m : ℕ} (hm : r.missed ≤ m) :
    (v.between 0 m).foldl (Slot.next build) s =
      { parts := fun i => if r.missed ≤ i ∧ i < m then some (v.part i) else none,
        shown := (build ((List.range v.n).map (r.mixed v))).or s.shown } := by
  have hpos := r.pos
  have hleft : ∀ i, s.parts i = if r.missed ≤ i ∧ i < r.version.n then some (r.version.part i)
      else none := h
  have hsplit : v.between 0 m = v.between 0 (r.missed - 1) ++
      ([.part (r.missed - 1) v.n (v.part (r.missed - 1))] ++ v.between r.missed m) := by
    have hsucc := between_succ v (Nat.zero_le (r.missed - 1))
    rw [Nat.sub_add_cancel hpos] at hsucc
    rw [← List.append_assoc, ← hsucc, between_append v (Nat.zero_le _) hm]
  obtain ⟨hlt, hle⟩ := hc
  have hfirst : s.parts (r.missed - 1) = none := by
    rw [hleft, if_neg (by omega)]
  rw [hsplit, List.foldl_append, foldl_between v s (Nat.zero_le _) (by omega) hfirst
    (Or.inr le_rfl), List.foldl_append, List.foldl_cons, List.foldl_nil,
    next_of_all (g := r.mixed v) (by rw [Late.mixed, if_pos (by omega)]),
    foldl_between v _ hm v.pos rfl (Or.inl hpos)]
  intro j hj hne
  dsimp only
  rw [Late.mixed]
  by_cases hjk : j < r.missed
  · rw [if_pos (by omega), if_pos hjk]
  · rw [if_neg (by omega), if_neg hjk, hleft, if_pos (by omega)]

theorem clean_or_crosses (l : Option (Late build Good)) (v : Version build Good) :
    (∀ r ∈ l, ¬ r.Crosses v) ∨ ∃ r, l = some r ∧ r.Crosses v := by
  cases l with
  | none => exact Or.inl fun r hr => by cases hr
  | some r =>
    by_cases hc : r.Crosses v
    · exact Or.inr ⟨r, rfl, hc⟩
    · exact Or.inl fun r' hr' => Option.some.inj hr' ▸ hc

theorem holding_msgs (h : Holding l s) (v : Version build Good) :
    Holding (leftAfter l v) (v.msgs.foldl (Slot.next build) s) := by
  rcases clean_or_crosses l v with hclean | ⟨r, rfl, hc⟩
  · have hnone : leftAfter l v = none := by
      cases l with
      | none => rfl
      | some r => exact if_neg (hclean r rfl)
    rw [foldl_msgs_of_clean h hclean, hnone]
    exact fun _ => rfl
  · have hsome : leftAfter (some r) v =
        some { version := v, missed := r.missed, pos := r.pos } := if_pos hc
    rw [Version.msgs, foldl_between_of_crosses h hc hc.1.le, hsome]
    exact fun _ => rfl

/-- The parts left over show as the version does that they complete. -/
def AgreesWith (l : Option (Late build Good)) (v : Version build Good) : Prop :=
  ∀ r ∈ l, r.Crosses v → build ((List.range v.n).map (r.mixed v)) = some v.whole

theorem shown_between (h : Holding l s) (hl : AgreesWith l v) {m : ℕ} (hm : m ≤ v.n) :
    ((v.between 0 m).foldl (Slot.next build) s).shown = s.shown ∨
      ((v.between 0 m).foldl (Slot.next build) s).shown = some v.whole := by
  rcases clean_or_crosses l v with hclean | ⟨r, rfl, hc⟩
  · rcases Nat.lt_or_ge m v.n with hlt | hge
    · rw [foldl_between v s (Nat.zero_le m) (Nat.sub_lt v.pos Nat.one_pos) (parts_last h hclean)
        (Or.inr (by omega))]
      exact Or.inl rfl
    · obtain rfl := Nat.le_antisymm hm hge
      have hmsgs := foldl_msgs_of_clean h hclean
      rw [Version.msgs] at hmsgs
      rw [hmsgs]
      exact Or.inr rfl
  · rcases Nat.lt_or_ge m r.missed with hlt | hge
    · have hfirst : s.parts (r.missed - 1) = none := by
        have hpos := r.pos
        rw [h, leftOver, Option.bind_some, if_neg (by omega)]
      rw [foldl_between v s (Nat.zero_le m) ((Nat.sub_le _ _).trans_lt hc.1) hfirst
        (Or.inr (by omega))]
      exact Or.inl rfl
    · rw [foldl_between_of_crosses h hc hge, hl r rfl hc]
      exact Or.inr rfl

theorem shown_msgs (h : Holding l s) (hl : AgreesWith l v) :
    (v.msgs.foldl (Slot.next build) s).shown = some v.whole := by
  rcases clean_or_crosses l v with hclean | ⟨r, rfl, hc⟩
  · rw [foldl_msgs_of_clean h hclean]
  · rw [Version.msgs, foldl_between_of_crosses h hc hc.1.le, hl r rfl hc]
    rfl

theorem length_between (v : Version build Good) (k m : ℕ) : (v.between k m).length = m - k := by
  rw [Version.between, List.length_map, List.length_range']

theorem exists_between {v : Version build Good} {k n : ℕ} (hkn : k ≤ n) {p : List (PartMsg τ)}
    (h : p <+: v.between k n) : ∃ m, k ≤ m ∧ m ≤ n ∧ p = v.between k m := by
  have hle := h.length_le
  rw [length_between] at hle
  refine ⟨k + p.length, Nat.le_add_right _ _, by omega, (List.prefix_iff_eq_take.1 h).trans ?_⟩
  rw [← between_append v (Nat.le_add_right k p.length) (by omega : k + p.length ≤ n),
    List.take_left' (by rw [length_between, Nat.add_sub_cancel_left])]

theorem prefix_append_cases {α : Type*} {p a b : List α} (h : p <+: a ++ b) :
    p <+: a ∨ ∃ q, p = a ++ q ∧ q <+: b := by
  rcases List.prefix_or_prefix_of_prefix h (List.prefix_append a b) with hpre | ⟨q, rfl⟩
  · exact Or.inl hpre
  · exact Or.inr ⟨q, rfl, (List.prefix_append_right_inj a).1 h⟩

/-! ## What a receiver shows -/

/-- What a receiver has after some messages. -/
def received (build : List τ → Option ω) (msgs : List (PartMsg τ)) : Slot τ ω :=
  msgs.foldl (Slot.next build) {}

/-- The messages that are left of a version for one who comes late. -/
def lateMsgs (late : Option (Late build Good)) : List (PartMsg τ) := (late.map Late.msgs).getD []

/-- What is shown is always one version, and after the last part of a version that is received from its
first part on, that one. -/
structure Assembled (late : Option (Late build Good)) (sent : List (Sent build Good)) : Prop where
  whole : ∀ msgs, msgs <+: lateMsgs late ++ sent.flatMap Sent.msgs →
    ∀ o ∈ (received build msgs).shown,
      (∃ r ∈ late, r.version.whole = o) ∨ ∃ v, .version v ∈ sent ∧ v.whole = o
  complete : ∀ before v after, sent = before ++ .version v :: after →
    (received build (lateMsgs late ++ (before ++ [.version v]).flatMap Sent.msgs)).shown =
      some v.whole

theorem shown_prefix (sent : List (Sent build Good)) (h : Holding l s) (hl : Agrees l sent)
    {msgs : List (PartMsg τ)} (hmsgs : msgs <+: sent.flatMap Sent.msgs) :
    ∀ o ∈ (msgs.foldl (Slot.next build) s).shown,
      o ∈ s.shown ∨ ∃ v, .version v ∈ sent ∧ v.whole = o := by
  induction sent generalizing l s msgs with
  | nil =>
    rw [List.prefix_nil.1 hmsgs]
    exact fun o ho => Or.inl ho
  | cons e sent ih =>
    rw [List.flatMap_cons] at hmsgs
    cases e with
    | clear =>
      rcases prefix_append_cases hmsgs with hpre | ⟨rest, rfl, hrest⟩
      · rcases List.prefix_cons_iff.1 hpre with rfl | ⟨t, rfl, ht⟩
        · exact fun o ho => Or.inl ho
        · rw [List.prefix_nil.1 ht]
          intro o ho
          cases ho
      · intro o ho
        rw [List.foldl_append] at ho
        rcases ih (holding_clear s) hl hrest o ho with hs | ⟨v, hv, hw⟩
        · cases hs
        · exact Or.inr ⟨v, List.mem_cons_of_mem _ hv, hw⟩
    | version v =>
      rcases prefix_append_cases hmsgs with hpre | ⟨rest, rfl, hrest⟩
      · obtain ⟨m, -, hm, rfl⟩ := exists_between (Nat.zero_le v.n) hpre
        intro o ho
        rcases shown_between h hl.1 hm with hsame | hwhole
        · exact Or.inl (hsame ▸ ho)
        · rw [hwhole] at ho
          exact Or.inr ⟨v, List.mem_cons_self, Option.some.inj ho⟩
      · intro o ho
        rw [List.foldl_append] at ho
        rcases ih (holding_msgs h v) hl.2 hrest o ho with hs | ⟨w, hw, ho⟩
        · have hs' : o ∈ (v.msgs.foldl (Slot.next build) s).shown := hs
          rw [shown_msgs h hl.1] at hs'
          exact Or.inr ⟨v, List.mem_cons_self, Option.some.inj hs'⟩
        · exact Or.inr ⟨w, List.mem_cons_of_mem _ hw, ho⟩

theorem shown_complete (before : List (Sent build Good)) {after : List (Sent build Good)}
    (h : Holding l s) (hl : Agrees l (before ++ .version v :: after)) :
    (((before ++ [Sent.version v]).flatMap Sent.msgs).foldl (Slot.next build) s).shown =
      some v.whole := by
  induction before generalizing l s with
  | nil =>
    rw [List.nil_append, List.flatMap_singleton]
    exact shown_msgs h hl.1
  | cons e before ih =>
    rw [List.cons_append, List.flatMap_cons, List.foldl_append]
    cases e with
    | clear => exact ih (holding_clear s) hl
    | version w => exact ih (holding_msgs h w) hl.2

/-- If versions are shown after their last parts, the parts left over agree with them, where whatever
is mixed of good parts can be built. -/
theorem agrees_of_complete (hbuild : ∀ ts : List τ, (∀ t ∈ ts, Good t) → 2 ≤ ts.length →
      (build ts).isSome)
    (sent : List (Sent build Good)) (h : Holding l s)
    (hcomplete : ∀ before v after, sent = before ++ .version v :: after →
      (((before ++ [.version v]).flatMap Sent.msgs).foldl (Slot.next build) s).shown =
        some v.whole) : Agrees l sent := by
  induction sent generalizing l s with
  | nil => trivial
  | cons e sent ih =>
    have hrest : ∀ before v after, sent = before ++ .version v :: after →
        (((before ++ [.version v]).flatMap Sent.msgs).foldl (Slot.next build)
          (e.msgs.foldl (Slot.next build) s)).shown = some v.whole := by
      rintro before v after rfl
      have hmore := hcomplete (e :: before) v after rfl
      rwa [List.cons_append, List.flatMap_cons, List.foldl_append] at hmore
    cases e with
    | clear => exact ih (holding_clear s) hrest
    | version v =>
      refine ⟨fun r hr hc => ?_, ih (holding_msgs h v) hrest⟩
      obtain rfl : l = some r := hr
      have hshown := hcomplete [] v sent rfl
      rw [List.nil_append, List.flatMap_singleton, Sent.msgs, Version.msgs,
        foldl_between_of_crosses h hc hc.1.le] at hshown
      have hpos := r.pos
      have hsome := hbuild ((List.range v.n).map (r.mixed v)) (fun t ht => ?_)
        (by rw [List.length_map, List.length_range]; have := hc.1; omega)
      · obtain ⟨o, ho⟩ := Option.isSome_iff_exists.1 hsome
        rw [ho] at hshown ⊢
        exact hshown
      · obtain ⟨i, hi, rfl⟩ := List.mem_map.1 ht
        rw [List.mem_range] at hi
        rw [Late.mixed]
        split_ifs
        · exact v.good i hi
        · exact r.version.good i (hi.trans_le hc.2)

theorem Late.msgs_eq (l : Late build Good) :
    l.msgs = l.version.between l.missed (max l.missed l.version.n) := by
  rw [Late.msgs, Version.between, Version.between]
  congr 2
  omega

theorem foldl_late (l : Late build Good) {m : ℕ} (hm : l.missed ≤ m) :
    (l.version.between l.missed m).foldl (Slot.next build) {} =
      { parts := fun i => if l.missed ≤ i ∧ i < m then some (l.version.part i) else none } :=
  foldl_between l.version {} hm l.version.pos rfl (Or.inl l.pos)

theorem holding_lateMsgs (late : Option (Late build Good)) :
    Holding late (received build (lateMsgs late)) := by
  cases late with
  | none => exact fun _ => rfl
  | some l =>
    intro i
    change (l.msgs.foldl (Slot.next build) {}).parts i = leftOver (some l) i
    rw [l.msgs_eq, foldl_late l (Nat.le_max_left _ _), leftOver, Option.bind_some]
    dsimp only
    by_cases hi : l.missed ≤ i ∧ i < l.version.n
    · rw [if_pos hi, if_pos (by omega)]
    · rw [if_neg hi, if_neg (by omega)]

theorem shown_lateMsgs (late : Option (Late build Good)) {msgs : List (PartMsg τ)}
    (h : msgs <+: lateMsgs late) : (received build msgs).shown = none := by
  cases late with
  | none =>
    rw [List.prefix_nil.1 h]
    rfl
  | some l =>
    rw [lateMsgs, Option.map_some, Option.getD_some, l.msgs_eq] at h
    obtain ⟨m, hm, -, rfl⟩ := exists_between (Nat.le_max_left _ _) h
    rw [received, foldl_late l hm]

/-- A receiver shows whole versions, each after its last part, exactly if the parts left over agree with
the versions that they complete. -/
theorem assembled_iff (hbuild : ∀ ts : List τ, (∀ t ∈ ts, Good t) → 2 ≤ ts.length →
      (build ts).isSome) (late : Option (Late build Good)) (sent : List (Sent build Good)) :
    Assembled late sent ↔ Agrees late sent := by
  have hholding := holding_lateMsgs late
  have happend : ∀ msgs, received build (lateMsgs late ++ msgs) =
      msgs.foldl (Slot.next build) (received build (lateMsgs late)) := fun msgs => by
    rw [received, List.foldl_append, received]
  constructor
  · intro hassembled
    refine agrees_of_complete hbuild sent hholding fun before v after heq => ?_
    rw [← happend]
    exact hassembled.complete before v after heq
  · intro hagrees
    refine ⟨fun msgs hmsgs o ho => ?_, fun before v after heq => ?_⟩
    · rcases prefix_append_cases hmsgs with hpre | ⟨rest, rfl, hrest⟩
      · rw [shown_lateMsgs late hpre] at ho
        cases ho
      · rw [happend] at ho
        rcases shown_prefix sent hholding hagrees hrest o ho with hs | hv
        · rw [shown_lateMsgs late (List.prefix_refl _)] at hs
          cases hs
        · exact Or.inr hv
    · rw [happend]
      exact shown_complete before hholding (heq ▸ hagrees)

end Lib.Assembly
