import Bewe.Lib.Ownership
import Bewe.EmitterDb.Model

/-!
# Membership as a two-sided index

Membership is kept on both sides: a sighting has the uid of its emitter, an emitter the ids of its
sightings. `EmitterDb.index` reads a database as such a two-sided index, and each operation's effect
on it is a composition of the index operations of `Lib.Index`. What an operation keeps is then what
these keep. Only `upsertEmitter` of an emitter that is not there leaves them: it stores the list
that the caller brings.
-/

namespace Bewe.EmitterDb

open Lib

/-! ## The index of a database -/

/-- The emitter that each sighting names. -/
def owners (sightings : Std.TreeMap Bytes Sighting) (sid : Bytes) : Option Bytes :=
  (sightings[sid]?).bind fun s => if s.emitter_uid = [] then none else some s.emitter_uid

/-- The sightings that each emitter lists. -/
def memberLists (emitters : Std.TreeMap Bytes Emitter) (uid : Bytes) : Option (List Bytes) :=
  (emitters[uid]?).map Emitter.member_sighting_ids

/-- The two sides of membership in a database. -/
def index (db : EmitterDb) : Index Bytes Bytes := ⟨owners db.sightings, memberLists db.emitters⟩

@[simp] theorem owners_insert (m : Std.TreeMap Bytes Sighting) (sid : Bytes) (s : Sighting) :
    owners (m.insert sid s) = Function.update (owners m) sid
      (if s.emitter_uid = [] then none else some s.emitter_uid) := by
  funext k
  by_cases h : k = sid
  · subst h; simp [owners]
  · simp [owners, Std.TreeMap.getElem?_insert, Function.update_of_ne h, Ne.symm h]

@[simp] theorem owners_erase (m : Std.TreeMap Bytes Sighting) (sid : Bytes) :
    owners (m.erase sid) = Function.update (owners m) sid none := by
  funext k
  by_cases h : k = sid
  · subst h; simp [owners]
  · simp [owners, Std.TreeMap.getElem?_erase, Function.update_of_ne h, Ne.symm h]

@[simp] theorem memberLists_insert (m : Std.TreeMap Bytes Emitter) (uid : Bytes) (e : Emitter) :
    memberLists (m.insert uid e) = Function.update (memberLists m) uid
      (some e.member_sighting_ids) := by
  funext k
  by_cases h : k = uid
  · subst h; simp [memberLists]
  · simp [memberLists, Std.TreeMap.getElem?_insert, Function.update_of_ne h, Ne.symm h]

@[simp] theorem memberLists_erase (m : Std.TreeMap Bytes Emitter) (uid : Bytes) :
    memberLists (m.erase uid) = Function.update (memberLists m) uid none := by
  funext k
  by_cases h : k = uid
  · subst h; simp [memberLists]
  · simp [memberLists, Std.TreeMap.getElem?_erase, Function.update_of_ne h, Ne.symm h]

/-- Recomputing the aggregates leaves the members and the uid alone. -/
@[simp] theorem recompute_member_sighting_ids (m : Std.TreeMap Bytes Sighting) (e : Emitter) :
    (recomputeEmitterAggregate m e).member_sighting_ids = e.member_sighting_ids := rfl

@[simp, inherit_doc recompute_member_sighting_ids]
theorem recompute_emitter_uid (m : Std.TreeMap Bytes Sighting) (e : Emitter) :
    (recomputeEmitterAggregate m e).emitter_uid = e.emitter_uid := rfl

/-- An unknown sighting names no emitter. -/
theorem owners_eq_none {m : Std.TreeMap Bytes Sighting} {sid : Bytes} (h : m[sid]? = none) :
    owners m sid = none := by
  simp [owners, h]

/-- A sighting names an emitter exactly when its `emitter_uid` is that emitter's, which is never
empty. -/
theorem owners_eq_some_iff {m : Std.TreeMap Bytes Sighting} {sid uid : Bytes} (hu : uid ≠ []) :
    owners m sid = some uid ↔ ∃ s, m[sid]? = some s ∧ s.emitter_uid = uid := by
  unfold owners
  cases h : m[sid]? with
  | none => simp
  | some s =>
    by_cases he : s.emitter_uid = []
    · simp [he, hu.symm]
    · simp [he]

/-! ## What the operations do to the index -/

/-- A sighting of an existing emitter is stored and listed by it. -/
theorem index_pushMember {db : EmitterDb} {uid sid : Bytes} {s : Sighting} {e : Emitter}
    (he : db.emitters[uid]? = some e) (hu : uid ≠ []) :
    index (pushMember { db with
      sightings := db.sightings.insert sid { s with emitter_uid := uid } } uid sid) =
      (index db).assign sid uid := by
  have hm : memberLists db.emitters uid = some e.member_sighting_ids := by simp [memberLists, he]
  simp [index, pushMember, Index.assign, he, hu, hm]

/-- A new emitter appears with a sighting as its only member. -/
theorem index_addNewEmitter (uid : Bytes) (now : ℤ) (status : UInt8) (db : EmitterDb) (sid : Bytes)
    (s : Sighting) (hu : uid ≠ []) :
    index (addNewEmitter uid now status db sid s) = ((index db).create uid []).assign sid uid := by
  simp [index, addNewEmitter, Index.assign, Index.create, hu]

/-- Forgetting a sighting on the side of its emitter, and letting it name no emitter, releases
it. -/
theorem index_removeFromEmitter (db : EmitterDb) {sid : Bytes} {s : Sighting}
    (hs : db.sightings[sid]? = some s) :
    (index (removeFromEmitter sid db s.emitter_uid)).members =
        ((index db).release sid).members ∧
      (removeFromEmitter sid db s.emitter_uid).sightings = db.sightings := by
  unfold removeFromEmitter
  split_ifs with hu
  · have ho : (index db).owner sid = none := by simp [index, owners, hs, hu]
    rw [Index.release_of_owner_eq_none ho]
    exact ⟨rfl, rfl⟩
  · have ho : owners db.sightings sid = some s.emitter_uid := by simp [owners, hs, hu]
    split
    · next hn =>
      refine ⟨?_, rfl⟩
      funext u
      simp only [index, Index.release, ho, Option.some.injEq]
      split_ifs with he
      · simp [← he, memberLists, hn]
      · rfl
    · next e he =>
      refine ⟨?_, rfl⟩
      funext u
      simp only [index, Index.release, ho, Option.some.injEq, memberLists_insert,
        recompute_member_sighting_ids]
      split_ifs with heq
      · simp [← heq, memberLists, he]
      · rw [Function.update_of_ne (Ne.symm heq)]

/-- A sighting that an emitter does not list is put at the end of its list. -/
theorem index_addToEmitter {db : EmitterDb} {sid uid : Bytes}
    (h : ∀ l, memberLists db.emitters uid = some l → sid ∉ l) :
    index (addToEmitter sid db uid) = ⟨owners db.sightings, Function.update (memberLists db.emitters)
      uid ((memberLists db.emitters uid).map (· ++ [sid]))⟩ := by
  unfold addToEmitter
  split
  · next hn =>
    have hm : memberLists db.emitters uid = none := by simp [memberLists, hn]
    rw [hm, Option.map_none, ← hm, Function.update_eq_self]
    rfl
  · next e he =>
    have hm : memberLists db.emitters uid = some e.member_sighting_ids := by
      simp [memberLists, he]
    simp only [if_neg (h _ hm), index, memberLists_insert, recompute_member_sighting_ids, hm,
      Option.map_some]

/-- A uid that no emitter has and no sighting names. -/
def Fresh (db : EmitterDb) (uid : Bytes) : Prop :=
  uid ≠ [] ∧ db.emitters[uid]? = none ∧ ∀ kv ∈ db.sightings.toList, kv.2.emitter_uid ≠ uid

instance (db : EmitterDb) (uid : Bytes) : Decidable (db.Fresh uid) := by
  unfold Fresh
  infer_instance

/-- No sighting names a fresh uid. -/
theorem Fresh.owner_ne {db : EmitterDb} {uid : Bytes} (h : db.Fresh uid) (sid : Bytes) :
    (index db).owner sid ≠ some uid := by
  intro ho
  obtain ⟨s, hs, hu⟩ := (owners_eq_some_iff h.1).mp ho
  exact h.2.2 (sid, s) (Std.TreeMap.mem_toList_iff_getElem?_eq_some.mpr hs) hu

/-- A key is the id of what it leads to, and no emitter has an empty uid. -/
structure Keyed (db : EmitterDb) : Prop where
  emitter : ∀ (uid : Bytes) (e : Emitter), db.emitters[uid]? = some e → e.emitter_uid = uid ∧ uid ≠ []
  sighting : ∀ (sid : Bytes) (s : Sighting), db.sightings[sid]? = some s → s.sighting_id = sid

/-- A score above `-1` is the score of an emitter that exists. -/
theorem bestMatch_mem {score : Sighting → Emitter → ℚ} {s : Sighting}
    {m : Std.TreeMap Bytes Emitter} (h : -1 < (bestMatch score s m).1) :
    ∃ e, m[(bestMatch score s m).2]? = some e := by
  have hfold : ∀ (l : List (Bytes × Emitter)) (best : ℚ × Bytes),
      let r := l.foldl (fun best kv =>
        if best.1 < score s kv.2 then (score s kv.2, kv.1) else best) best
      r = best ∨ ∃ kv ∈ l, r.2 = kv.1 := by
    intro l
    induction l with
    | nil => exact fun best => Or.inl rfl
    | cons kv l ih =>
      intro best
      simp only [List.foldl_cons]
      rcases ih (if best.1 < score s kv.2 then (score s kv.2, kv.1) else best) with hr | ⟨kv', hm, hr⟩
      · rw [hr]
        split_ifs
        · exact Or.inr ⟨kv, by simp⟩
        · exact Or.inl rfl
      · exact Or.inr ⟨kv', List.mem_cons_of_mem _ hm, hr⟩
  rcases hfold m.toList (-1, []) with hr | ⟨kv, hm, hr⟩
  · rw [bestMatch, hr] at h
    exact absurd h (lt_irrefl _)
  · refine ⟨kv.2, ?_⟩
    rw [bestMatch, hr]
    exact Std.TreeMap.mem_toList_iff_getElem?_eq_some.mp hm

/-- Storing a sighting that names what its predecessor named does not change the index. -/
theorem moves_refresh {db : EmitterDb} {sid : Bytes} {old s : Sighting}
    (ho : db.sightings[sid]? = some old) (hu : s.emitter_uid = old.emitter_uid) :
    Index.Moves (index db) (index { db with sightings := db.sightings.insert sid s }) := by
  have h : owners db.sightings sid = if s.emitter_uid = [] then none else some s.emitter_uid := by
    simp [owners, ho, hu]
  simp only [index, owners_insert]
  rw [← h, Function.update_eq_self]

/-- Storing a sighting that names no emitter, where there was none that did, does not either. -/
theorem moves_unowned {db : EmitterDb} {sid : Bytes} {s : Sighting}
    (ho : (index db).owner sid = none) (hu : s.emitter_uid = []) :
    Index.Moves (index db) (index { db with sightings := db.sightings.insert sid s }) := by
  have h : owners db.sightings sid = none := ho
  simp only [index, owners_insert, hu, if_true]
  rw [← h, Function.update_eq_self]

/-- A new emitter with an unowned sighting takes two moves. -/
theorem moves_new {x : Index Bytes Bytes} {uid sid : Bytes} (hu : ∀ k, x.owner k ≠ some uid)
    (hs : x.owner sid = none) : Index.Moves x ((x.create uid []).assign sid uid) :=
  (Relation.ReflTransGen.single (.appear uid hu)).tail (.assign sid uid hs)

/-- `ingestSighting` moves the index. -/
theorem moves_ingest (score : Sighting → Emitter → ℚ) {uid : Bytes} (now : ℤ) {db : EmitterDb}
    (hf : db.Fresh uid) (hk : db.Keyed) (s : Sighting) :
    Index.Moves (index db) (index (ingestSighting score uid now db s).1) := by
  unfold ingestSighting
  split
  · next old ho => exact moves_refresh ho rfl
  · next hn =>
    have ho : (index db).owner s.sighting_id = none := owners_eq_none hn
    -- joining the best emitter is the same for a high score and for a middling one
    have hjoin : ∀ status, -1 < (bestMatch score s db.emitters).1 →
        Index.Moves (index db) (index (pushMember { db with
          sightings := db.sightings.insert s.sighting_id
            { s with emitter_uid := (bestMatch score s db.emitters).2, match_status := status } }
          (bestMatch score s db.emitters).2 s.sighting_id)) := by
      intro status hb
      obtain ⟨e, he⟩ := bestMatch_mem hb
      have hu := (hk.emitter _ e he).2
      rw [index_pushMember (s := { s with match_status := status }) he hu]
      exact .single (.assign _ _ ho)
    by_cases hfreq : 0 < s.freq_mhz
    · rw [if_neg (not_not.mpr hfreq)]
      by_cases hhigh : 17 / 20 ≤ (bestMatch score s db.emitters).1
      · simp only [hhigh, if_true]
        exact hjoin _ (by linarith)
      · by_cases hmid : 11 / 20 ≤ (bestMatch score s db.emitters).1
        · simp only [hhigh, hmid, if_true, if_false]
          exact hjoin _ (by linarith)
        · simp only [hhigh, hmid, if_false]
          rw [index_addNewEmitter _ _ _ _ _ _ hf.1]
          exact moves_new hf.owner_ne ho
    · rw [if_pos hfreq]
      exact moves_unowned ho rfl

/-- `deleteEmitter`'s loop makes the members forget their emitter. -/
theorem owners_clear (l : List Bytes) (m : Std.TreeMap Bytes Sighting) (sid : Bytes) :
    owners (l.foldl clearSighting m) sid = if sid ∈ l then none else owners m sid := by
  have hstep : ∀ (m : Std.TreeMap Bytes Sighting) (k : Bytes),
      owners (clearSighting m k) = Function.update (owners m) k none := by
    intro m k
    unfold clearSighting
    split
    · next h => rw [← owners_eq_none h, Function.update_eq_self]
    · simp
  induction l generalizing m with
  | nil => simp
  | cons k l ih =>
    rw [List.foldl_cons, ih, hstep]
    by_cases h : sid = k
    · simp [h]
    · simp [h]

/-- `deleteEmitter` moves the index. -/
theorem moves_deleteEmitter (db : EmitterDb) (uid : Bytes) :
    Index.Moves (index db) (index (deleteEmitter db uid).1) := by
  unfold deleteEmitter
  split
  · rfl
  · next e he =>
    have hl : (index db).members uid = some e.member_sighting_ids := by
      simp [index, memberLists, he]
    refine .single ?_
    convert Index.Move.disband hl using 1
    ext1
    · funext k
      simp [index, Index.drop, Index.disown, owners_clear]
    · simp [index, Index.drop, Index.disown]

/-- One turn of `deleteSightingByFilename` moves the index. -/
theorem moves_removeSighting (r : Removal) (sid : Bytes) :
    Index.Moves (index r.db) (index (removeSighting r sid).db) := by
  unfold removeSighting
  split
  · rfl
  · next s hs =>
    have hrel : ∀ uid, owners r.db.sightings sid = some uid →
        (index r.db).release sid = ⟨Function.update (owners r.db.sightings) sid none,
          Function.update (memberLists r.db.emitters) uid
            ((memberLists r.db.emitters uid).map (List.filter (· ≠ sid)))⟩ := by
      intro uid ho
      ext1
      · rfl
      · funext u
        simp only [index, Index.release, ho, Option.some.injEq]
        split_ifs with h
        · rw [← h, Function.update_self]
        · rw [Function.update_of_ne (Ne.symm h)]
    by_cases hu : s.emitter_uid = []
    · have ho : owners r.db.sightings sid = none := by simp [owners, hs, hu]
      simp only [hu, if_true, index, owners_erase]
      rw [← ho, Function.update_eq_self]
    · have ho : owners r.db.sightings sid = some s.emitter_uid := by simp [owners, hs, hu]
      refine Relation.ReflTransGen.head (.release sid) ?_
      rw [hrel _ ho]
      simp only [hu, if_false]
      split
      · next hn =>
        have hm : memberLists r.db.emitters s.emitter_uid = none := by simp [memberLists, hn]
        rw [hm, Option.map_none, ← hm, Function.update_eq_self]
        simp only [index, owners_erase]
        rfl
      · next e he =>
        have hm : memberLists r.db.emitters s.emitter_uid = some e.member_sighting_ids := by
          simp [memberLists, he]
        by_cases hempty : e.member_sighting_ids.filter (· ≠ sid) = []
        · rw [if_pos hempty]
          simp only [index, owners_erase, memberLists_erase]
          refine .single ?_
          have hd := Index.Move.drop (x := ⟨Function.update (owners r.db.sightings) sid none,
            Function.update (memberLists r.db.emitters) s.emitter_uid
              ((memberLists r.db.emitters s.emitter_uid).map (List.filter (· ≠ sid)))⟩) s.emitter_uid
          simpa only [Index.drop, Function.update_idem] using hd
        · rw [if_neg hempty]
          simp only [index, owners_erase, memberLists_insert, recompute_member_sighting_ids, hm,
            Option.map_some]
          rfl

/-- `deleteSightingByFilename` moves the index. -/
theorem moves_deleteSightingByFilename (db : EmitterDb) (filename : Bytes) (aff orph : List Bytes) :
    Index.Moves (index db) (index (deleteSightingByFilename db filename aff orph).1.db) := by
  have hfold : ∀ (l : List Bytes) (r : Removal),
      Index.Moves (index r.db) (index (l.foldl removeSighting r).db) := by
    intro l
    induction l with
    | nil => exact fun r => .refl
    | cons sid l ih => exact fun r => (moves_removeSighting r sid).trans (ih _)
  exact hfold _ ⟨db, aff, orph⟩

/-- `linkSighting` moves the index, from a sound one. -/
theorem moves_linkSighting {uid : Bytes} (now : ℤ) {db : EmitterDb} (hf : db.Fresh uid)
    (hx : (index db).Sound) (sid target : Bytes) (action : UInt8) :
    Index.Moves (index db) (index (linkSighting uid now db sid target action).1) := by
  unfold linkSighting
  split
  · rfl
  · next s hs =>
    obtain ⟨hmem, hsight⟩ := index_removeFromEmitter db hs
    have hown : ∀ o, Function.update ((index db).release sid).owner sid o =
        Function.update (owners db.sightings) sid o :=
      fun o => Function.update_idem _ _ _
    have hrel : Index.Moves (index db) ((index db).release sid) := .single (.release sid)
    split_ifs with h0 hne h13 h2 ht
    · exact moves_refresh hs rfl
    · rfl
    · -- rejected or split off: released, then alone with a new emitter
      have hfresh : ∀ k, ((index db).release sid).owner k ≠ some uid := by
        intro k
        by_cases hk : k = sid
        · simp [hk]
        · simpa [Index.release, Function.update_of_ne hk] using hf.owner_ne k
      refine hrel.trans ?_
      convert moves_new hfresh (Index.release_owner_self _ _) using 1
      rw [index_addNewEmitter _ _ _ _ _ _ hf.1]
      ext1
      · simp only [Index.assign, Index.create, hown]
        simp only [index, hsight]
      · simp only [Index.assign, Index.create, hmem]
    · -- moved to a target: released, then listed by it if it exists
      refine hrel.trans (.single ?_)
      have hstep := Index.Move.assign sid target (Index.release_owner_self (index db) sid)
      have hto : index (addToEmitter sid { removeFromEmitter sid db s.emitter_uid with
          sightings := (removeFromEmitter sid db s.emitter_uid).sightings.insert sid
            { s with emitter_uid := target, match_status := MS_MANUAL } } target) =
          ((index db).release sid).assign sid target := by
        have hmem' : memberLists (removeFromEmitter sid db s.emitter_uid).emitters =
            ((index db).release sid).members := hmem
        rw [index_addToEmitter]
        · ext1
          · simp only [Index.assign, hown, owners_insert, hsight, ht, if_false]
          · simp only [Index.assign, hmem']
        · intro l hl hm
          have ho := hx.release sid target l (hmem' ▸ hl) sid hm
          simp at ho
      exact hto ▸ hstep
    · -- moved to no target: released
      convert hrel using 1
      ext1
      · simp only [index, owners_insert, hsight, not_not.mp ht, if_true]
        rfl
      · exact hmem
    · rfl

/-! ## Keys -/

theorem Keyed.insertEmitter {db : EmitterDb} (h : db.Keyed) {uid : Bytes} {e : Emitter}
    (he : e.emitter_uid = uid) (hu : uid ≠ []) :
    Keyed { db with emitters := db.emitters.insert uid e } := by
  refine ⟨fun k x hx => ?_, h.sighting⟩
  rw [Std.TreeMap.getElem?_insert] at hx
  by_cases hk : uid = k
  · subst hk
    simp only [Std.ReflCmp.compare_self, if_true, Option.some.injEq] at hx
    exact hx ▸ ⟨he, hu⟩
  · exact h.emitter k x (by simpa [hk] using hx)

theorem Keyed.insertSighting {db : EmitterDb} (h : db.Keyed) {sid : Bytes} {s : Sighting}
    (hs : s.sighting_id = sid) : Keyed { db with sightings := db.sightings.insert sid s } := by
  refine ⟨h.emitter, fun k x hx => ?_⟩
  rw [Std.TreeMap.getElem?_insert] at hx
  by_cases hk : sid = k
  · subst hk
    simp only [Std.ReflCmp.compare_self, if_true, Option.some.injEq] at hx
    exact hx ▸ hs
  · exact h.sighting k x (by simpa [hk] using hx)

theorem Keyed.eraseEmitter {db : EmitterDb} (h : db.Keyed) (uid : Bytes) :
    Keyed { db with emitters := db.emitters.erase uid } := by
  refine ⟨fun k x hx => ?_, h.sighting⟩
  rw [Std.TreeMap.getElem?_erase] at hx
  split_ifs at hx
  exact h.emitter k x hx

theorem Keyed.eraseSighting {db : EmitterDb} (h : db.Keyed) (sid : Bytes) :
    Keyed { db with sightings := db.sightings.erase sid } := by
  refine ⟨h.emitter, fun k x hx => ?_⟩
  rw [Std.TreeMap.getElem?_erase] at hx
  split_ifs at hx
  exact h.sighting k x hx

theorem Keyed.addNewEmitter {db : EmitterDb} (h : db.Keyed) {uid : Bytes} (hu : uid ≠ []) (now : ℤ)
    (status : UInt8) {sid : Bytes} {s : Sighting} (hs : s.sighting_id = sid) :
    (addNewEmitter uid now status db sid s).Keyed :=
  (h.insertSighting (s := { s with emitter_uid := uid, match_status := status }) hs).insertEmitter
    rfl hu

theorem Keyed.ingest {db : EmitterDb} (h : db.Keyed) (score : Sighting → Emitter → ℚ) {uid : Bytes}
    (hu : uid ≠ []) (now : ℤ) (s : Sighting) : (ingestSighting score uid now db s).1.Keyed := by
  have hpush : ∀ (db : EmitterDb) (k sid : Bytes), db.Keyed → (∃ e, db.emitters[k]? = some e) →
      (pushMember db k sid).Keyed := by
    rintro db k sid hdb ⟨e, he⟩
    obtain ⟨hid, hne⟩ := hdb.emitter k e he
    exact hdb.insertEmitter (by simp [he, hid]) hne
  unfold ingestSighting
  split
  · exact h.insertSighting rfl
  · by_cases hfreq : 0 < s.freq_mhz
    · simp only [hfreq, not_true_eq_false, if_false]
      split_ifs
      · exact hpush _ _ _ (h.insertSighting rfl) (bestMatch_mem (by linarith))
      · exact hpush _ _ _ (h.insertSighting rfl) (bestMatch_mem (by linarith))
      all_goals exact h.addNewEmitter hu now _ rfl
    · rw [if_pos hfreq]
      exact h.insertSighting rfl

theorem Keyed.upsert {db : EmitterDb} (h : db.Keyed) {uid : Bytes} (hu : uid ≠ []) (now : ℤ)
    (e : Emitter) : (upsertEmitter uid now db e).1.Keyed := by
  refine h.insertEmitter rfl ?_
  unfold upserted
  by_cases he : e.emitter_uid = []
  · simp [he, hu]
  · simp only [he, if_false]
    split <;> exact he

theorem Keyed.deleteEmitter {db : EmitterDb} (h : db.Keyed) (uid : Bytes) :
    (deleteEmitter db uid).1.Keyed := by
  have hclear : ∀ (l : List Bytes) (db : EmitterDb), db.Keyed →
      Keyed { db with sightings := l.foldl clearSighting db.sightings } := by
    intro l
    induction l with
    | nil => exact fun db hdb => hdb
    | cons sid l ih =>
      intro db hdb
      refine ih { db with sightings := clearSighting db.sightings sid } ?_
      unfold clearSighting
      split
      · exact hdb
      · next s hs => exact hdb.insertSighting (hdb.sighting sid s hs)
  unfold EmitterDb.deleteEmitter
  split
  · exact h
  · next e _ => exact (hclear e.member_sighting_ids db h).eraseEmitter uid

theorem Keyed.removeSighting {r : Removal} (h : r.db.Keyed) (sid : Bytes) :
    (removeSighting r sid).db.Keyed := by
  unfold EmitterDb.removeSighting
  split
  · exact h
  · next s _ =>
    by_cases hu : s.emitter_uid = []
    · simp only [hu, if_true]
      exact h.eraseSighting sid
    · simp only [hu, if_false]
      split
      · exact h.eraseSighting sid
      · next e he =>
        split_ifs
        · exact (h.eraseSighting sid).eraseEmitter _
        all_goals exact (h.eraseSighting sid).insertEmitter (h.emitter _ e he).1 hu

theorem Keyed.deleteSightingByFilename {db : EmitterDb} (h : db.Keyed) (filename : Bytes)
    (aff orph : List Bytes) : (deleteSightingByFilename db filename aff orph).1.db.Keyed := by
  have hfold : ∀ (l : List Bytes) (r : Removal), r.db.Keyed →
      (l.foldl EmitterDb.removeSighting r).db.Keyed := by
    intro l
    induction l with
    | nil => exact fun r hr => hr
    | cons sid l ih => exact fun r hr => ih _ (hr.removeSighting sid)
  exact hfold _ ⟨db, aff, orph⟩ h

theorem Keyed.removeFromEmitter {db : EmitterDb} (h : db.Keyed) (sid uid : Bytes) :
    (removeFromEmitter sid db uid).Keyed := by
  unfold EmitterDb.removeFromEmitter
  split_ifs with hu
  · exact h
  · split
    · exact h
    · next e he => exact h.insertEmitter (h.emitter uid e he).1 hu

theorem Keyed.addToEmitter {db : EmitterDb} (h : db.Keyed) (sid uid : Bytes) :
    (addToEmitter sid db uid).Keyed := by
  unfold EmitterDb.addToEmitter
  split
  · exact h
  · next e he => exact h.insertEmitter (h.emitter uid e he).1 (h.emitter uid e he).2

theorem Keyed.linkSighting {db : EmitterDb} (h : db.Keyed) {uid : Bytes} (hu : uid ≠ []) (now : ℤ)
    (sid target : Bytes) (action : UInt8) : (linkSighting uid now db sid target action).1.Keyed := by
  unfold EmitterDb.linkSighting
  split
  · exact h
  · next s hs =>
    have hid := h.sighting sid s hs
    split_ifs
    · exact h.insertSighting hid
    · exact h
    · exact (h.removeFromEmitter sid _).addNewEmitter hu now _ hid
    · exact ((h.removeFromEmitter sid s.emitter_uid).insertSighting
        (s := { s with emitter_uid := target, match_status := MS_MANUAL }) hid).addToEmitter sid target
    · exact (h.removeFromEmitter sid _).insertSighting hid
    · exact h

end Bewe.EmitterDb
