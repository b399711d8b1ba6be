import Bewe.Lib.Run
import Bewe.EmitterDb.Index
import Bewe.EmitterDb.Score

/-!
# Referential integrity of the signal library

What holds of membership in every state that calls of `EmitterDb` lead to from an empty database.
All of them keep both sides in step, whatever their arguments, but for one: an upsert of an emitter
that is not there stores the member list that the caller brings. `Call.Listed` is the condition on
such an upsert, and `integrity_of_run` says that it is what integrity takes.
-/

namespace Bewe.EmitterDb

open Lib

/-! ## Calls -/

/-- The five mutating operations, with their arguments. -/
inductive Op
  | ingest (s : Sighting)
  | upsert (e : Emitter)
  | delete (uid : Bytes)
  | deleteByFilename (filename : Bytes) (affected_out orphaned_out : List Bytes)
  | link (sid target : Bytes) (action : UInt8)

/-- An operation, with the uid and the time that it draws if it needs them. -/
structure Call where
  op : Op
  uid : Bytes
  now : ℤ

/-- The database after a call, under a scoring function. -/
def Call.apply (score : Sighting → Emitter → ℚ) (db : EmitterDb) (c : Call) : EmitterDb :=
  match c.op with
  | .ingest s => (ingestSighting score c.uid c.now db s).1
  | .upsert e => (upsertEmitter c.uid c.now db e).1
  | .delete uid => (deleteEmitter db uid).1
  | .deleteByFilename filename aff orph => (deleteSightingByFilename db filename aff orph).1.db
  | .link sid target action => (linkSighting c.uid c.now db sid target action).1

/-- The uid that an upsert stores its emitter under. -/
def Call.upsertUid (c : Call) (e : Emitter) : Bytes :=
  if e.emitter_uid = [] then c.uid else e.emitter_uid

/-- The condition on a call: an upsert that makes a new emitter brings as its members exactly the
sightings that already name its uid, each once. -/
def Call.Listed (db : EmitterDb) (c : Call) : Prop :=
  match c.op with
  | .upsert e =>
    db.emitters[c.upsertUid e]? = none →
      e.member_sighting_ids.Nodup ∧
      (∀ sid ∈ e.member_sighting_ids, owners db.sightings sid = some (c.upsertUid e)) ∧
      ∀ kv ∈ db.sightings.toList, kv.2.emitter_uid = c.upsertUid e → kv.1 ∈ e.member_sighting_ids
  | _ => True

instance (db : EmitterDb) (c : Call) : Decidable (c.Listed db) :=
  match c with
  | ⟨.upsert _, _, _⟩ => inferInstanceAs (Decidable (_ = none → _ ∧ _ ∧ _))
  | ⟨.ingest _, _, _⟩ | ⟨.delete _, _, _⟩ | ⟨.deleteByFilename _ _ _, _, _⟩
  | ⟨.link _ _ _, _, _⟩ => .isTrue trivial

/-- A call of which the drawn uid is new. -/
def Step (score : Sighting → Emitter → ℚ) (db : EmitterDb) (c : Call) (db' : EmitterDb) : Prop :=
  db.Fresh c.uid ∧ db' = c.apply score db

/-! ## Integrity -/

/-- An emitter lists a sighting exactly when the sighting exists and has its uid; no list has a
sighting twice, and no two emitters list the same one. -/
def Integrity (db : EmitterDb) : Prop :=
  (∀ (uid : Bytes) (e : Emitter), db.emitters[uid]? = some e →
    e.member_sighting_ids.Nodup ∧
    ∀ sid, sid ∈ e.member_sighting_ids ↔
      ∃ s, db.sightings[sid]? = some s ∧ s.emitter_uid = e.emitter_uid) ∧
  ∀ (uid uid' : Bytes) (e e' : Emitter), db.emitters[uid]? = some e →
    db.emitters[uid']? = some e' → ∀ sid ∈ e.member_sighting_ids, sid ∈ e'.member_sighting_ids →
      uid = uid'

theorem integrity_iff_exact {db : EmitterDb} (hk : db.Keyed) : db.Integrity ↔ (index db).Exact := by
  constructor
  · rintro ⟨h, -⟩ uid l hl
    obtain ⟨e, he, rfl⟩ := Option.map_eq_some_iff.mp hl
    obtain ⟨hid, hne⟩ := hk.emitter uid e he
    obtain ⟨hnd, hmem⟩ := h uid e he
    refine ⟨hnd, fun sid => ?_⟩
    rw [hmem sid, hid]
    exact (owners_eq_some_iff hne).symm
  · intro h
    have hl : ∀ (uid : Bytes) (e : Emitter), db.emitters[uid]? = some e →
        (index db).members uid = some e.member_sighting_ids := by
      intro uid e he
      simp [index, memberLists, he]
    refine ⟨fun uid e he => ?_, fun uid uid' e e' he he' sid hs hs' =>
      h.sound.eq_of_mem (hl uid e he) (hl uid' e' he') hs hs'⟩
    obtain ⟨hid, hne⟩ := hk.emitter uid e he
    obtain ⟨hnd, hmem⟩ := h uid _ (hl uid e he)
    refine ⟨hnd, fun sid => ?_⟩
    rw [hmem sid, hid]
    exact owners_eq_some_iff hne

theorem upserted_of_unknown {db : EmitterDb} {c : Call} {e : Emitter}
    (h : db.emitters[c.upsertUid e]? = none) :
    (upserted c.uid c.now db e).emitter_uid = c.upsertUid e ∧
      (upserted c.uid c.now db e).member_sighting_ids = e.member_sighting_ids := by
  unfold Call.upsertUid at h ⊢
  unfold upserted
  by_cases he : e.emitter_uid = []
  · simp [he]
  · simp only [he, if_false] at h ⊢
    simp [h]

theorem index_upsert_of_known {db : EmitterDb} {c : Call} (hf : db.Fresh c.uid)
    {e old : Emitter} (h : db.emitters[c.upsertUid e]? = some old) :
    index (upsertEmitter c.uid c.now db e).1 = index db := by
  have he : e.emitter_uid ≠ [] := by
    intro he
    simp [Call.upsertUid, he, hf.2.1] at h
  rw [Call.upsertUid, if_neg he] at h
  have hm : memberLists db.emitters e.emitter_uid = some old.member_sighting_ids := by
    simp [memberLists, h]
  have hu : (upserted c.uid c.now db e).emitter_uid = e.emitter_uid ∧
      (upserted c.uid c.now db e).member_sighting_ids = old.member_sighting_ids := by
    simp [upserted, he, h]
  simp only [index, upsertEmitter, memberLists_insert, hu]
  rw [← hm, Function.update_eq_self]

theorem index_upsert_of_unknown {db : EmitterDb} {c : Call} {e : Emitter}
    (h : db.emitters[c.upsertUid e]? = none) :
    index (upsertEmitter c.uid c.now db e).1 =
      (index db).create (c.upsertUid e) e.member_sighting_ids := by
  obtain ⟨hu, hm⟩ := upserted_of_unknown h
  simp [index, upsertEmitter, Index.create, hu, hm]

theorem Keyed.apply {db : EmitterDb} (hk : db.Keyed) (score : Sighting → Emitter → ℚ) {c : Call}
    (hf : db.Fresh c.uid) : (c.apply score db).Keyed := by
  unfold Call.apply
  split
  · exact hk.ingest score hf.1 c.now _
  · exact hk.upsert hf.1 c.now _
  · exact hk.deleteEmitter _
  · exact hk.deleteSightingByFilename _ _ _
  · exact hk.linkSighting hf.1 c.now _ _ _

theorem moves_apply (score : Sighting → Emitter → ℚ) {db : EmitterDb} (hk : db.Keyed)
    (hx : (index db).Sound) {c : Call} (hf : db.Fresh c.uid) (hc : ∀ e, c.op ≠ .upsert e) :
    Index.Moves (index db) (index (c.apply score db)) := by
  unfold Call.apply
  split
  · exact moves_ingest score c.now hf hk _
  · next e he => exact absurd he (hc e)
  · exact moves_deleteEmitter db _
  · exact moves_deleteSightingByFilename db _ _ _
  · exact moves_linkSighting c.now hf hx _ _ _

theorem exact_apply_iff (score : Sighting → Emitter → ℚ) {db : EmitterDb} (hk : db.Keyed)
    (hx : (index db).Exact) {c : Call} (hf : db.Fresh c.uid) :
    (index (c.apply score db)).Exact ↔ c.Listed db := by
  by_cases hc : ∃ e, c.op = .upsert e
  · obtain ⟨e, he⟩ := hc
    simp only [Call.apply, Call.Listed, he]
    cases hn : db.emitters[c.upsertUid e]? with
    | some old => simp [index_upsert_of_known hf hn, hx]
    | none =>
      have hne : c.upsertUid e ≠ [] := by
        unfold Call.upsertUid
        split_ifs with h
        · exact hf.1
        · exact h
      rw [index_upsert_of_unknown hn, Index.exact_create_iff hx]
      simp only [forall_true_left]
      refine and_congr_right fun _ => ⟨fun h => ⟨fun sid => (h sid).mp, ?_⟩, ?_⟩
      · rintro ⟨sid, s⟩ hm hu
        rw [h sid]
        exact (owners_eq_some_iff hne).mpr
          ⟨s, Std.TreeMap.mem_toList_iff_getElem?_eq_some.mp hm, hu⟩
      · rintro ⟨h1, h2⟩ sid
        refine ⟨h1 sid, fun ho => ?_⟩
        obtain ⟨s, hs, hu⟩ := (owners_eq_some_iff hne).mp ho
        exact h2 (sid, s) (Std.TreeMap.mem_toList_iff_getElem?_eq_some.mpr hs) hu
  · have hc' : ∀ e, c.op ≠ .upsert e := fun e he => hc ⟨e, he⟩
    have hl : c.Listed db := by
      unfold Call.Listed
      split
      · next e he => exact absurd he (hc' e)
      · trivial
    exact iff_of_true ((moves_apply score hk hx.sound hf hc').exact hx) hl

/-- An empty database has its records under their names. -/
theorem keyed_empty : Keyed {} := ⟨by simp, by simp⟩

/-- The index of an empty database is exact. -/
theorem exact_empty : (index {}).Exact := by
  intro uid l hl
  simp [index, memberLists] at hl

/-- In every run from an empty database in which each upsert of an unknown emitter brings the
members that name it, integrity holds; and the next call keeps it exactly when it meets that
condition. -/
theorem integrity_of_run (score : Sighting → Emitter → ℚ) (calls : List Call) (db : EmitterDb)
    (h : Run (fun db c db' => c.Listed db ∧ Step score db c db') {} calls db) :
    db.Integrity ∧ ∀ c : Call, db.Fresh c.uid → ((c.apply score db).Integrity ↔ c.Listed db) := by
  have hinv : db.Keyed ∧ (index db).Exact := by
    refine h.invariant (P := fun db => db.Keyed ∧ (index db).Exact) ?_ ⟨keyed_empty, exact_empty⟩
    rintro db c _ ⟨hl, hf, rfl⟩ ⟨hk, hx⟩
    exact ⟨hk.apply score hf, (exact_apply_iff score hk hx hf).mpr hl⟩
  refine ⟨(integrity_iff_exact hinv.1).mpr hinv.2, fun c hf => ?_⟩
  rw [integrity_iff_exact (hinv.1.apply score hf)]
  exact exact_apply_iff score hinv.1 hinv.2 hf

/-- A report's sighting, at 100 MHz, in a run that names an emitter, adds to it, and splits it. -/
def splitCalls : List Call :=
  [⟨.upsert { emitter_uid := ascii "e_1", freq_center_mhz := 100 }, ascii "e_0", 5⟩,
   ⟨.ingest { sighting_id := ascii "a", freq_mhz := 100, start_utc := 7 }, ascii "e_2", 6⟩,
   ⟨.link (ascii "a") [] 3, ascii "e_3", 7⟩]

theorem integrity_of_run_split : (splitCalls.foldl (Call.apply scoreMatch) {}).Integrity :=
  (integrity_of_run scoreMatch splitCalls _
    (.cons ⟨by decide, by decide, rfl⟩ <| .cons ⟨trivial, by decide, rfl⟩ <|
      .cons ⟨trivial, by decide +kernel, rfl⟩ <| .nil _)).1

/-- A sighting without a frequency is moved to a uid that no emitter has yet; the emitter is then
made under that uid, with no members. -/
def danglingCalls : List Call :=
  [⟨.ingest { sighting_id := ascii "a" }, ascii "e_0", 5⟩,
   ⟨.link (ascii "a") (ascii "e_1") 2, ascii "e_2", 6⟩,
   ⟨.upsert { emitter_uid := ascii "e_1" }, ascii "e_3", 7⟩]

theorem not_integrity_of_dangling :
    ¬∀ (calls : List Call) (db : EmitterDb), Run (Step scoreMatch) {} calls db → db.Integrity := by
  intro h
  have hrun : Run (Step scoreMatch) {} danglingCalls (danglingCalls.foldl (Call.apply scoreMatch) {}) :=
    .cons ⟨by decide, rfl⟩ <| .cons ⟨by decide, rfl⟩ <| .cons ⟨by decide, rfl⟩ <| .nil _
  have he : (danglingCalls.foldl (Call.apply scoreMatch) {}).emitters[ascii "e_1"]? =
      some (upserted [] 0 {} { emitter_uid := ascii "e_1" }) := by decide +kernel
  have hs : ∃ s, (danglingCalls.foldl (Call.apply scoreMatch) {}).sightings[ascii "a"]? = some s ∧
      s.emitter_uid = ascii "e_1" := by
    refine ⟨{ sighting_id := ascii "a", emitter_uid := ascii "e_1", match_status := MS_MANUAL }, ?_⟩
    decide
  have hmem := (((h _ _ hrun).1 _ _ he).2 (ascii "a")).mpr hs
  exact absurd hmem (by decide)

end Bewe.EmitterDb
