import Bewe.Guard.Drawn
import Bewe.Lib.Assembly

/-!
# Versions of a path

A path is sent again when it changes, in other chunks, and a viewer may come in the middle. For one
path, `overlay_ingest` does what a receiver of numbered parts does (`slot_ingested`), whatever comes for
other paths in between. So what is drawn is always one version, and after its last chunk the version
that was received from its first chunk on, exactly if the chunks that are left over of an earlier one
agree with every version that they complete (`versions_iff`).
-/

namespace Bewe.Guard

open Lib (Dict Fp)
open Lib.Assembly

/-! ## One path of a viewer -/

/-- What is drawn of the chunks, if there are two vertices. -/
def draw (texts : List Bytes) : Option (List (Fp 24)) :=
  if 4 ≤ (texts.flatMap vertices).length then some (texts.flatMap vertices) else none

/-- `total`. -/
def GuardAlert.total (a : GuardAlert) : UInt32 := if a.mmsi2 ≠ 0 then a.mmsi2 else 1

/-- What a message says of its path. -/
def GuardAlert.partMsg (a : GuardAlert) : PartMsg Bytes :=
  if a.state = 3 then .clear else .part a.mmsi.toNat a.total.toNat a.reco.str

/-- The chunks of a path that a viewer has, by their numbers. -/
def partsOf (chunks : Dict UInt32 Bytes) (i : ℕ) : Option Bytes :=
  if i < 2 ^ 32 then chunks.find (UInt32.ofNat i) else none

/-- What a viewer has of a path, and what it draws. -/
def Overlays.slot (v : Overlays) (x : UInt32) : Slot Bytes (List (Fp 24)) where
  parts := partsOf ((v.g_ovchunks.find x).getD .empty)
  shown := (v.g_overlays.find x).map OverlayPath.ll

/-- What is known of a path besides its vertices has none. -/
def Overlays.Plain (v : Overlays) : Prop := ∀ x o, v.g_ovmeta.find x = some o → o.ll = []

theorem partsOf_set (chunks : Dict UInt32 Bytes) (k : UInt32) (t : Bytes) :
    partsOf (chunks.set k t) = Function.update (partsOf chunks) k.toNat (some t) := by
  funext i
  rw [partsOf]
  by_cases hi : i = k.toNat
  · rw [hi, Function.update_self, if_pos k.toNat_lt, UInt32.ofNat_toNat, Dict.find_set_self]
  · rw [Function.update_of_ne hi, partsOf]
    split_ifs with hlt
    · rw [Dict.find_set_of_ne]
      intro heq
      rw [← heq, UInt32.toNat_ofNat_of_lt' hlt] at hi
      exact hi rfl
    · rfl

theorem foldlM_addChunk (f : ℕ → Option Bytes) (l : List ℕ) (p : OverlayPath) :
    l.foldlM (fun p i => (f i).map p.addChunk) p =
      (l.mapM f).map fun ts => ts.foldl OverlayPath.addChunk p := by
  induction l generalizing p with
  | nil => rfl
  | cons i l ih =>
    rw [List.foldlM_cons, List.mapM_cons]
    cases f i with
    | none => rfl
    | some t =>
      change l.foldlM (fun p i => (f i).map p.addChunk) (p.addChunk t) = _
      rw [ih]
      cases l.mapM f <;> rfl

theorem collect_eq_gather (chunks : Dict UInt32 Bytes) (total : UInt32) (p : OverlayPath) :
    collect chunks total p =
      (gather (partsOf chunks) total.toNat).map fun ts => ts.foldl OverlayPath.addChunk p := by
  have hparts : ∀ i < total.toNat, partsOf chunks i = chunks.find (UInt32.ofNat i) := fun i hi =>
    if_pos (hi.trans total.toNat_lt)
  rw [gather_congr hparts, gather, collect]
  exact foldlM_addChunk _ _ p

theorem ll_foldl_addChunk (ts : List Bytes) (p : OverlayPath) :
    (ts.foldl OverlayPath.addChunk p).ll = p.ll ++ ts.flatMap vertices := by
  induction ts generalizing p with
  | nil => simp
  | cons t ts ih =>
    rw [List.foldl_cons, ih, List.flatMap_cons, ← List.append_assoc]
    rfl

theorem le_length_keys {chunks : Dict UInt32 Bytes} {n : ℕ} (hn : n ≤ 2 ^ 32) {ts : List Bytes}
    (h : gather (partsOf chunks) n = some ts) : n ≤ chunks.keys.length := by
  have hnodup : ((List.range n).map UInt32.ofNat).Nodup := by
    refine List.Nodup.map_on (fun i hi j hj heq => ?_) List.nodup_range
    exact Path.ofNat_inj ((List.mem_range.1 hi).trans_le hn) ((List.mem_range.1 hj).trans_le hn) heq
  have hsub : (List.range n).map UInt32.ofNat ⊆ chunks.keys := by
    intro k hk
    obtain ⟨i, hi, rfl⟩ := List.mem_map.1 hk
    rw [List.mem_range] at hi
    rw [chunks.mem_keys, Option.isSome_iff_ne_none]
    intro hnone
    have hmissing : gather (partsOf chunks) n = none :=
      gather_eq_none hi (by rw [partsOf, if_pos (hi.trans_le hn), hnone])
    rw [hmissing] at h
    cases h
  have hlen := (hnodup.subperm hsub).length_le
  rwa [List.length_map, List.length_range] at hlen

theorem ll_metaOf {v : Overlays} (h : v.Plain) (a : GuardAlert) : (v.metaOf a).ll = [] := by
  rw [Overlays.metaOf]
  dsimp only
  cases hfind : v.g_ovmeta.find a.aid with
  | none => rfl
  | some o => exact h a.aid o hfind

theorem plain_fresh : Overlays.fresh.Plain := fun _ _ h => by cases h

/-- A chunk is kept while another one is missing, and with the last one the path is drawn. -/
theorem overlay_ingest_eq (v : Overlays) {a : GuardAlert} (hstate : ¬ a.state = 3) :
    overlay_ingest a v =
      match gather (partsOf (v.chunksOf a)) a.total.toNat with
      | none =>
        { v with
          g_ovchunks := v.g_ovchunks.set a.aid (v.chunksOf a)
          g_ovmeta := v.g_ovmeta.set a.aid (v.metaOf a) }
      | some ts =>
        let p := ts.foldl OverlayPath.addChunk (v.metaOf a)
        { g_overlays := if 4 ≤ p.ll.length then v.g_overlays.set a.aid p else v.g_overlays
          g_ovchunks := (v.g_ovchunks.set a.aid (v.chunksOf a)).erase a.aid
          g_ovmeta := v.g_ovmeta.set a.aid (v.metaOf a) } := by
  have hcollect := collect_eq_gather (v.chunksOf a) a.total (v.metaOf a)
  have hsize := fun ts => @le_length_keys (v.chunksOf a) _ a.total.toNat_lt.le ts
  rw [overlay_ingest, if_neg hstate]
  rw [GuardAlert.total] at hcollect hsize ⊢
  dsimp only
  cases hgather : gather (partsOf (v.chunksOf a))
      (if a.mmsi2 ≠ 0 then a.mmsi2 else (1 : UInt32)).toNat with
  | none =>
    rw [hgather] at hcollect
    rw [hcollect]
    exact ite_self _
  | some ts =>
    rw [hgather] at hcollect
    rw [hcollect, if_neg (Nat.not_lt.2 (hsize ts hgather))]
    rfl

theorem plain_ingest {v : Overlays} (h : v.Plain) (a : GuardAlert) : (overlay_ingest a v).Plain := by
  by_cases hstate : a.state = 3
  · rw [overlay_ingest, if_pos hstate]
    intro x o ho
    by_cases hx : x = a.aid
    · rw [hx, Dict.find_erase_self] at ho
      cases ho
    · rw [Dict.find_erase_of_ne _ hx] at ho
      exact h x o ho
  · have hset : ∀ x o, (v.g_ovmeta.set a.aid (v.metaOf a)).find x = some o → o.ll = [] := by
      intro x o ho
      rw [Dict.find_set] at ho
      split_ifs at ho
      · rw [← Option.some.inj ho]
        exact ll_metaOf h a
      · exact h x o ho
    rw [overlay_ingest_eq v hstate]
    split
    · exact hset
    · exact hset

theorem partsOf_empty : partsOf .empty = fun _ => none := by
  funext i
  rw [partsOf]
  split_ifs <;> rfl

theorem slot_ingest_self {v : Overlays} (h : v.Plain) (a : GuardAlert) :
    (overlay_ingest a v).slot a.aid = (v.slot a.aid).next draw a.partMsg := by
  rw [GuardAlert.partMsg]
  by_cases hstate : a.state = 3
  · rw [overlay_ingest, if_pos hstate, if_pos hstate, Overlays.slot, Dict.find_erase_self,
      Dict.find_erase_self]
    exact congrArg (fun parts => Slot.mk parts none) partsOf_empty
  · have hparts : Function.update (v.slot a.aid).parts a.mmsi.toNat (some a.reco.str) =
        partsOf (v.chunksOf a) := (partsOf_set _ _ _).symm
    rw [overlay_ingest_eq v hstate, if_neg hstate, Slot.next, hparts]
    cases gather (partsOf (v.chunksOf a)) a.total.toNat with
    | none =>
      dsimp only
      rw [Overlays.slot, Dict.find_set_self]
      rfl
    | some ts =>
      have hll := ll_foldl_addChunk ts (v.metaOf a)
      rw [ll_metaOf h a, List.nil_append] at hll
      dsimp only
      rw [Overlays.slot, Dict.find_erase_self, Option.getD_none, partsOf_empty, hll, draw]
      congr 1
      split_ifs
      · rw [Dict.find_set_self, Option.map_some, hll]
        rfl
      · rfl

theorem slot_ingest_of_ne {v : Overlays} {a : GuardAlert} {x : UInt32} (hx : x ≠ a.aid) :
    (overlay_ingest a v).slot x = v.slot x := by
  by_cases hstate : a.state = 3
  · rw [overlay_ingest, if_pos hstate, Overlays.slot, Dict.find_erase_of_ne _ hx,
      Dict.find_erase_of_ne _ hx]
    rfl
  · rw [overlay_ingest_eq v hstate]
    split
    · rw [Overlays.slot, Dict.find_set_of_ne _ hx]
      rfl
    · dsimp only
      rw [Overlays.slot, Dict.find_erase_of_ne _ hx, Dict.find_set_of_ne _ hx]
      split_ifs
      · rw [Dict.find_set_of_ne _ hx]
        rfl
      · rfl

/-! ## Messages of many paths -/

/-- The overlays after some messages, for a viewer that had none before. -/
def ingested (msgs : List GuardAlert) : Overlays :=
  msgs.foldl (fun v a => overlay_ingest a v) .fresh

/-- What the messages of a path say. -/
def partMsgs (x : UInt32) (msgs : List GuardAlert) : List (PartMsg Bytes) :=
  (msgs.filter fun a => decide (a.aid = x)).map GuardAlert.partMsg

theorem plain_ingested (msgs : List GuardAlert) : (ingested msgs).Plain := by
  induction msgs using List.reverseRecOn with
  | nil => exact plain_fresh
  | append_singleton msgs a ih =>
    rw [ingested, List.foldl_append]
    exact plain_ingest ih a

theorem slot_ingested (x : UInt32) (msgs : List GuardAlert) :
    (ingested msgs).slot x = received draw (partMsgs x msgs) := by
  induction msgs using List.reverseRecOn with
  | nil => exact congrArg (fun parts => Slot.mk parts none) partsOf_empty
  | append_singleton msgs a ih =>
    have hfold : ingested (msgs ++ [a]) = overlay_ingest a (ingested msgs) := by
      rw [ingested, List.foldl_append]
      rfl
    rw [hfold, partMsgs, List.filter_append, List.map_append, received, List.foldl_append]
    by_cases hx : a.aid = x
    · subst hx
      rw [slot_ingest_self (plain_ingested msgs), ih, List.filter_cons_of_pos (by simp)]
      rfl
    · rw [slot_ingest_of_ne (Ne.symm hx), ih, List.filter_cons_of_neg (by simpa using hx)]
      rfl

/-! ## What is drawn of the versions -/

/-- A chunk has a vertex. -/
def HasVertex (text : Bytes) : Prop := vertices text ≠ []

instance : DecidablePred HasVertex := fun _ => inferInstanceAs (Decidable (_ ≠ _))

theorem two_le_length_readVertices (n : ℕ) (s : Bytes) :
    readVertices n s = [] ∨ 2 ≤ (readVertices n s).length := by
  cases n with
  | zero => exact Or.inl rfl
  | succ n =>
    rw [readVertices]
    generalize strtof s = r
    obtain ⟨la, e⟩ := r
    dsimp only
    split_ifs
    · exact Or.inl rfl
    · exact Or.inl rfl
    · cases e with
      | nil => exact Or.inl rfl
      | cons c t =>
        dsimp only
        generalize strtof t = r
        obtain ⟨lo, e⟩ := r
        dsimp only
        split_ifs
        · exact Or.inl rfl
        · exact Or.inl rfl
        · exact Or.inr (Nat.le_add_left 2 _)
        · exact Or.inr (Nat.le_add_left 2 _)

theorem isSome_draw {texts : List Bytes} (h : ∀ t ∈ texts, HasVertex t) (hlen : 2 ≤ texts.length) :
    (draw texts).isSome = true := by
  have hsum : ∀ ts : List Bytes, (∀ t ∈ ts, HasVertex t) →
      2 * ts.length ≤ (ts.flatMap vertices).length := by
    intro ts hts
    induction ts with
    | nil => exact Nat.le_refl 0
    | cons t ts ih =>
      have htwo : 2 ≤ (vertices t).length :=
        (two_le_length_readVertices _ _).resolve_left (hts t List.mem_cons_self)
      have hrest := ih fun u hu => hts u (List.mem_cons_of_mem _ hu)
      rw [List.length_cons, List.flatMap_cons, List.length_append]
      omega
  have hall := hsum texts h
  rw [draw, if_pos (by omega)]
  rfl

/-- What a viewer receives, of which the messages of one path are what is left of a version that it has
come too late for, and then versions and removals. -/
structure Reception (x : UInt32) where
  late : Option (Late draw HasVertex)
  sent : List (Sent draw HasVertex)
  msgs : List GuardAlert
  own : partMsgs x msgs = lateMsgs late ++ sent.flatMap Sent.msgs

/-- What is drawn of a path is always one version, and after the last chunk of a version that has been
received from its first chunk on, that one. -/
structure Reception.Unmixed {x : UInt32} (r : Reception x) : Prop where
  whole : ∀ msgs, msgs <+: r.msgs → ∀ o ∈ (ingested msgs).g_overlays.find x,
    (∃ l ∈ r.late, l.version.whole = o.ll) ∨ ∃ v, .version v ∈ r.sent ∧ v.whole = o.ll
  complete : ∀ before v after, r.sent = before ++ .version v :: after →
    ∀ msgs, msgs <+: r.msgs →
      partMsgs x msgs = lateMsgs r.late ++ (before ++ [.version v]).flatMap Sent.msgs →
        ∃ o, (ingested msgs).g_overlays.find x = some o ∧ o.ll = v.whole

theorem partMsgs_prefix {x : UInt32} {p msgs : List GuardAlert} (h : p <+: msgs) :
    partMsgs x p <+: partMsgs x msgs :=
  (h.filter _).map _

theorem exists_prefix_partMsgs {x : UInt32} (msgs : List GuardAlert) {q : List (PartMsg Bytes)}
    (h : q <+: partMsgs x msgs) : ∃ p, p <+: msgs ∧ partMsgs x p = q := by
  induction msgs generalizing q with
  | nil => exact ⟨[], List.nil_prefix, (List.prefix_nil.1 h).symm⟩
  | cons a msgs ih =>
    by_cases hx : a.aid = x
    · have hcons : ∀ l, partMsgs x (a :: l) = a.partMsg :: partMsgs x l := fun l => by
        rw [partMsgs, List.filter_cons_of_pos (by simpa using hx)]
        rfl
      rw [hcons] at h
      rcases List.prefix_cons_iff.1 h with rfl | ⟨t, rfl, ht⟩
      · exact ⟨[], List.nil_prefix, rfl⟩
      · obtain ⟨p, hp, rfl⟩ := ih ht
        exact ⟨a :: p, List.cons_prefix_cons.2 ⟨rfl, hp⟩, hcons p⟩
    · have hcons : ∀ l, partMsgs x (a :: l) = partMsgs x l := fun l => by
        rw [partMsgs, List.filter_cons_of_neg (by simpa using hx)]
        rfl
      rw [hcons] at h
      obtain ⟨p, hp, rfl⟩ := ih h
      exact ⟨a :: p, List.cons_prefix_cons.2 ⟨rfl, hp⟩, hcons p⟩

theorem shown_ingested (x : UInt32) (msgs : List GuardAlert) :
    ((ingested msgs).g_overlays.find x).map OverlayPath.ll =
      (received draw (partMsgs x msgs)).shown := by
  rw [← slot_ingested]
  rfl

namespace Reception

variable {x : UInt32} {r : Reception x}

theorem unmixed_of_assembled (h : Assembled r.late r.sent) : r.Unmixed where
  whole msgs hmsgs o ho := by
    have hshown := shown_ingested x msgs
    rw [ho, Option.map_some] at hshown
    have hpre := partMsgs_prefix (x := x) hmsgs
    rw [r.own] at hpre
    exact h.whole _ hpre o.ll hshown.symm
  complete before v after heq msgs _ hown := by
    have hshown := shown_ingested x msgs
    rw [hown, h.complete before v after heq] at hshown
    exact Option.map_eq_some_iff.1 hshown

theorem assembled_of_unmixed (h : r.Unmixed) : Assembled r.late r.sent where
  whole q hq o ho := by
    rw [← r.own] at hq
    obtain ⟨p, hp, rfl⟩ := exists_prefix_partMsgs r.msgs hq
    rw [← shown_ingested] at ho
    obtain ⟨path, hpath, rfl⟩ := Option.map_eq_some_iff.1 ho
    exact h.whole p hp path hpath
  complete before v after heq := by
    have hpre : lateMsgs r.late ++ (before ++ [Sent.version v]).flatMap Sent.msgs <+:
        partMsgs x r.msgs := by
      rw [r.own, heq]
      refine ⟨after.flatMap Sent.msgs, ?_⟩
      simp only [List.flatMap_append, List.flatMap_cons, List.flatMap_nil, List.append_assoc,
        List.append_nil]
    obtain ⟨p, hp, hown⟩ := exists_prefix_partMsgs r.msgs hpre
    obtain ⟨o, ho, hll⟩ := h.complete before v after heq p hp hown
    rw [← hown, ← shown_ingested, ho, Option.map_some, hll]

/-- Versions are not mixed exactly if the chunks that are left over agree with every version that they
complete. -/
theorem versions_iff (r : Reception x) : r.Unmixed ↔ Agrees r.late r.sent := by
  rw [← assembled_iff (fun _ => isSome_draw)]
  exact ⟨assembled_of_unmixed, unmixed_of_assembled⟩

end Reception

/-! ## A viewer that comes in the middle -/

/-- A chunk of path 7. -/
def chunkAlert (i n : UInt32) (text : CStr 128) : GuardAlert :=
  { readAlert [] with
    t_ms := 1, aid := 7, typ := 6, sev := 1, state := 1, mmsi := i, mmsi2 := n, reco := text }

/-- The texts of two versions. -/
def oldText (i : ℕ) : Bytes := ascii (["1,1;2,2", "3,3;4,4", "5,5"].getD i "")
@[inherit_doc oldText] def newText (i : ℕ) : Bytes := ascii (["6,6;7,7", "8,8"].getD i "")

/-- A version of three chunks. -/
def oldVersion : Version draw HasVertex where
  n := 3
  part := oldText
  whole := (List.range 3).flatMap fun i => vertices (oldText i)
  pos := by decide
  good := by decide +kernel
  build_eq := by decide +kernel

/-- A version of two chunks. -/
def newVersion : Version draw HasVertex where
  n := 2
  part := newText
  whole := (List.range 2).flatMap fun i => vertices (newText i)
  pos := by decide
  good := by decide +kernel
  build_eq := by decide +kernel

/-- A viewer misses the first chunk of the old version, and receives the new one. -/
def joined : Reception 7 where
  late := some { version := oldVersion, missed := 1, pos := by decide }
  sent := [.version newVersion]
  msgs := [chunkAlert 1 3 ⟨oldText 1, by decide⟩, chunkAlert 2 3 ⟨oldText 2, by decide⟩,
    chunkAlert 0 2 ⟨newText 0, by decide⟩, chunkAlert 1 2 ⟨newText 1, by decide⟩]
  own := by decide +kernel

/-- The second chunk of the old version is drawn behind the first of the new one. -/
theorem not_unmixed_of_join : ¬ joined.Unmixed := by
  intro h
  have hagrees := (assembled_iff (fun _ => isSome_draw) _ _).1 (Reception.assembled_of_unmixed h)
  have hmixed := hagrees.1 _ rfl ⟨by decide, by decide⟩
  revert hmixed
  decide +kernel

end Bewe.Guard
