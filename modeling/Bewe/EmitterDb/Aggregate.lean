import Bewe.EmitterDb.Integrity

/-!
# Aggregates of the signal library

An emitter's count, first and last sighting, and stations are derived from its members, and stored.
They depend on a sighting only through its start and its station (`recompute_congr`), so a call
keeps them current where it changes neither for a member, or recomputes. Two calls do neither: an
ingest of a known sighting replaces its fields and recomputes nothing, and an upsert of an emitter
that is not there stores the aggregates that the caller brings. `Call.Current` is the condition on
these two.
-/

namespace Bewe.EmitterDb

open Lib

/-- Each emitter's aggregates are what `recomputeEmitterAggregate` computes from its members. -/
def Aggregated (db : EmitterDb) : Prop :=
  ∀ (uid : Bytes) (e : Emitter), db.emitters[uid]? = some e →
    e.sighting_count = (recomputeEmitterAggregate db.sightings e).sighting_count ∧
    e.first_seen_utc = (recomputeEmitterAggregate db.sightings e).first_seen_utc ∧
    e.last_seen_utc = (recomputeEmitterAggregate db.sightings e).last_seen_utc ∧
    e.contributing_stations = (recomputeEmitterAggregate db.sightings e).contributing_stations

/-- The condition on a call. An ingest of a sighting that an emitter has keeps its start and its
station. An upsert that makes a new emitter brings members that name its uid, and the aggregates of
these. -/
def Call.Current (db : EmitterDb) (c : Call) : Prop :=
  match c.op with
  | .ingest s =>
    ∀ old ∈ db.sightings[s.sighting_id]?, db.emitters[old.emitter_uid]? ≠ none →
      s.start_utc = old.start_utc ∧ s.station = old.station
  | .upsert e =>
    db.emitters[c.upsertUid e]? = none →
      (∀ sid ∈ e.member_sighting_ids, owners db.sightings sid = some (c.upsertUid e)) ∧
      recomputeEmitterAggregate db.sightings e = e
  | _ => True

instance (db : EmitterDb) (c : Call) : Decidable (c.Current db) :=
  match c with
  | ⟨.ingest s, _, _⟩ => inferInstanceAs (Decidable (∀ old ∈ db.sightings[s.sighting_id]?, _))
  | ⟨.upsert _, _, _⟩ => inferInstanceAs (Decidable (_ = none → _ ∧ _))
  | ⟨.delete _, _, _⟩ | ⟨.deleteByFilename _ _ _, _, _⟩ | ⟨.link _ _ _, _, _⟩ => .isTrue trivial

/-! ## What aggregates depend on -/

/-- What a sighting adds to an aggregate. -/
def report (s : Sighting) : ℤ × Bytes := (s.start_utc, s.station)

/-- Aggregates depend on the start and the station of the members. -/
theorem recompute_congr {m m' : Std.TreeMap Bytes Sighting} {e : Emitter}
    (h : ∀ sid ∈ e.member_sighting_ids, (m[sid]?).map report = (m'[sid]?).map report) :
    recomputeEmitterAggregate m e = recomputeEmitterAggregate m' e := by
  have hstep : ∀ sid, (m[sid]?).map report = (m'[sid]?).map report →
      ∀ acc, aggregateStep m acc sid = aggregateStep m' acc sid := by
    intro sid hsid acc
    unfold aggregateStep
    cases hm : m[sid]? with
    | none =>
      cases hm' : m'[sid]? with
      | none => rfl
      | some s' => simp [hm, hm'] at hsid
    | some s =>
      cases hm' : m'[sid]? with
      | none => simp [hm, hm'] at hsid
      | some s' =>
        have hr : report s = report s' := by simpa [hm, hm'] using hsid
        obtain ⟨hstart, hstation⟩ := Prod.mk.inj hr
        simp only [hstart, hstation]
  have hfold : ∀ (l : List Bytes) (acc : ℤ × ℤ × List Bytes),
      (∀ sid ∈ l, (m[sid]?).map report = (m'[sid]?).map report) →
      l.foldl (aggregateStep m) acc = l.foldl (aggregateStep m') acc := by
    intro l
    induction l with
    | nil => exact fun _ _ => rfl
    | cons sid l ih =>
      intro acc hl
      rw [List.foldl_cons, List.foldl_cons, hstep sid (hl sid (by simp)),
        ih _ fun k hk => hl k (by simp [hk])]
  simp only [recomputeEmitterAggregate, hfold _ _ h]

/-- Recomputing twice is recomputing once. -/
theorem recompute_recompute (m : Std.TreeMap Bytes Sighting) (e : Emitter) :
    recomputeEmitterAggregate m (recomputeEmitterAggregate m e) = recomputeEmitterAggregate m e :=
  rfl

/-- The members and the aggregates of an emitter. -/
def managed (e : Emitter) : List Bytes × UInt32 × ℤ × ℤ × List Bytes :=
  (e.member_sighting_ids, e.sighting_count, e.first_seen_utc, e.last_seen_utc,
    e.contributing_stations)

/-- Whether recomputing changes something depends on the members and the aggregates. -/
theorem recompute_eq_self_of_same {m : Std.TreeMap Bytes Sighting} {e e' : Emitter}
    (he : recomputeEmitterAggregate m e = e) (h : managed e' = managed e) :
    recomputeEmitterAggregate m e' = e' := by
  simp only [managed, Prod.mk.injEq] at h
  obtain ⟨h0, h1, h2, h3, h4⟩ := h
  calc recomputeEmitterAggregate m e'
      = { e' with
          sighting_count := (recomputeEmitterAggregate m e).sighting_count
          first_seen_utc := (recomputeEmitterAggregate m e).first_seen_utc
          last_seen_utc := (recomputeEmitterAggregate m e).last_seen_utc
          contributing_stations := (recomputeEmitterAggregate m e).contributing_stations } := by
        simp only [recomputeEmitterAggregate, h0]
    _ = e' := by rw [he, ← h1, ← h2, ← h3, ← h4]

/-- Aggregates are current exactly when recomputing changes nothing. -/
theorem aggregated_iff {db : EmitterDb} : db.Aggregated ↔ ∀ (uid : Bytes) (e : Emitter),
    db.emitters[uid]? = some e → recomputeEmitterAggregate db.sightings e = e := by
  refine forall_congr' fun uid => forall_congr' fun e => imp_congr_right fun _ => ⟨?_, ?_⟩
  · rintro ⟨h1, h2, h3, h4⟩
    calc recomputeEmitterAggregate db.sightings e
        = { e with
            sighting_count := (recomputeEmitterAggregate db.sightings e).sighting_count
            first_seen_utc := (recomputeEmitterAggregate db.sightings e).first_seen_utc
            last_seen_utc := (recomputeEmitterAggregate db.sightings e).last_seen_utc
            contributing_stations :=
              (recomputeEmitterAggregate db.sightings e).contributing_stations } := rfl
      _ = e := by rw [← h1, ← h2, ← h3, ← h4]
  · intro h
    rw [h]
    exact ⟨rfl, rfl, rfl, rfl⟩

/-- New sightings that are the same to the members of every emitter leave the aggregates current. -/
theorem Aggregated.of_sightings {db : EmitterDb} (h : db.Aggregated)
    {m : Std.TreeMap Bytes Sighting}
    (hm : ∀ (uid : Bytes) (e : Emitter), db.emitters[uid]? = some e →
      ∀ sid ∈ e.member_sighting_ids, (db.sightings[sid]?).map report = (m[sid]?).map report) :
    Aggregated { db with sightings := m } := by
  rw [aggregated_iff] at h ⊢
  intro uid e he
  rw [← recompute_congr (hm uid e he)]
  exact h uid e he

/-- Storing an emitter with current aggregates, and sightings that are the same to the members of
every other, leaves all current. -/
theorem Aggregated.replace {db : EmitterDb} (h : db.Aggregated) {m : Std.TreeMap Bytes Sighting}
    {uid : Bytes} {e : Emitter} (he : recomputeEmitterAggregate m e = e)
    (hm : ∀ (u : Bytes) (e' : Emitter), db.emitters[u]? = some e' → u ≠ uid →
      ∀ sid ∈ e'.member_sighting_ids, (db.sightings[sid]?).map report = (m[sid]?).map report) :
    Aggregated { emitters := db.emitters.insert uid e, sightings := m } := by
  rw [aggregated_iff] at h ⊢
  intro k x hx
  rw [Std.TreeMap.getElem?_insert] at hx
  by_cases hk : uid = k
  · subst hk
    simp only [Std.ReflCmp.compare_self, if_true, Option.some.injEq] at hx
    exact hx ▸ he
  · have hx' : db.emitters[k]? = some x := by simpa [hk] using hx
    rw [← recompute_congr (hm k x hx' (Ne.symm hk))]
    exact h k x hx'

/-- Storing an emitter with current aggregates leaves all current. -/
theorem Aggregated.insertEmitter {db : EmitterDb} (h : db.Aggregated) {uid : Bytes} {e : Emitter}
    (he : recomputeEmitterAggregate db.sightings e = e) :
    Aggregated { db with emitters := db.emitters.insert uid e } :=
  h.replace he fun _ _ _ _ _ _ => rfl

theorem Aggregated.eraseEmitter {db : EmitterDb} (h : db.Aggregated) (uid : Bytes) :
    Aggregated { db with emitters := db.emitters.erase uid } := by
  intro k x hx
  rw [Std.TreeMap.getElem?_erase] at hx
  split_ifs at hx
  exact h k x hx

/-- Storing a sighting under a key leaves every other key's report, and its own if that is the
same. -/
theorem report_insert {m : Std.TreeMap Bytes Sighting} {sid k : Bytes} {s : Sighting}
    (h : k = sid → (m[sid]?).map report = some (report s)) :
    (m[k]?).map report = ((m.insert sid s)[k]?).map report := by
  by_cases hk : k = sid
  · subst hk
    simpa using h rfl
  · rw [Std.TreeMap.getElem?_insert]
    simp [Ne.symm hk]

/-- In a sound database the emitter that lists a sighting is the one that the sighting names. -/
theorem named_of_listed {db : EmitterDb} (hx : (index db).Sound) {uid sid : Bytes} {e : Emitter}
    (he : db.emitters[uid]? = some e) (hs : sid ∈ e.member_sighting_ids) :
    ∃ s, db.sightings[sid]? = some s ∧ s.emitter_uid = uid ∧ uid ≠ [] := by
  have ho : owners db.sightings sid = some uid :=
    hx uid e.member_sighting_ids (by simp [index, memberLists, he]) sid hs
  unfold owners at ho
  obtain ⟨s, hss, hu⟩ := Option.bind_eq_some_iff.mp ho
  split_ifs at hu with hne
  exact ⟨s, hss, Option.some.inj hu, Option.some.inj hu ▸ hne⟩

/-! ## What the operations do to aggregates -/

theorem Aggregated.addNewEmitter {db : EmitterDb} (h : db.Aggregated) {uid : Bytes} {now : ℤ}
    {status : UInt8} {sid : Bytes} {s : Sighting}
    (hs : ∀ (uid : Bytes) (e : Emitter), db.emitters[uid]? = some e →
      sid ∈ e.member_sighting_ids → (db.sightings[sid]?).map report = some (report s)) :
    (addNewEmitter uid now status db sid s).Aggregated := by
  have hrep : report { s with emitter_uid := uid, match_status := status } = report s := rfl
  have hm : Aggregated { db with
      sightings := db.sightings.insert sid { s with emitter_uid := uid, match_status := status } } :=
    h.of_sightings fun u e he k hk => report_insert fun e' => by
      rw [hrep]
      exact hs u e he (e' ▸ hk)
  exact hm.insertEmitter (recompute_recompute _ _)

theorem Aggregated.ingest {db : EmitterDb} (h : db.Aggregated) (hx : (index db).Sound)
    (score : Sighting → Emitter → ℚ) (uid : Bytes) (now : ℤ) (s : Sighting)
    (hc : ∀ old ∈ db.sightings[s.sighting_id]?, db.emitters[old.emitter_uid]? ≠ none →
      s.start_utc = old.start_utc ∧ s.station = old.station) :
    (ingestSighting score uid now db s).1.Aggregated := by
  unfold ingestSighting
  split
  · next old ho =>
    refine h.of_sightings fun u e he k hk => report_insert fun hks => ?_
    obtain ⟨s', hs', hu, -⟩ := named_of_listed hx he (hks ▸ hk)
    obtain rfl : old = s' := Option.some.inj (ho.symm.trans hs')
    obtain ⟨h1, h2⟩ := hc old ho (by rw [hu, he]; simp)
    simp [ho, report, h1, h2]
  · next hn =>
    have hun : ∀ (u : Bytes) (e : Emitter), db.emitters[u]? = some e →
        s.sighting_id ∉ e.member_sighting_ids := by
      intro u e he hk
      obtain ⟨s', hs', -⟩ := named_of_listed hx he hk
      simp [hn] at hs'
    -- an unknown sighting is no member of any emitter
    have hstore : ∀ s', Aggregated { db with sightings := db.sightings.insert s.sighting_id s' } :=
      fun s' => h.of_sightings fun u e he k hk => report_insert fun hks =>
        absurd (hks ▸ hk) (hun u e he)
    by_cases hfreq : 0 < s.freq_mhz
    · simp only [hfreq, not_true_eq_false, if_false]
      split_ifs
      · exact (hstore _).insertEmitter (recompute_recompute _ _)
      · exact (hstore _).insertEmitter (recompute_recompute _ _)
      all_goals exact h.addNewEmitter fun u e he hk => absurd hk (hun u e he)
    · rw [if_pos hfreq]
      exact hstore _

theorem Aggregated.upsert {db : EmitterDb} (h : db.Aggregated) {c : Call} (hf : db.Fresh c.uid)
    {e : Emitter} (hc : db.emitters[c.upsertUid e]? = none →
      recomputeEmitterAggregate db.sightings e = e) :
    (upsertEmitter c.uid c.now db e).1.Aggregated := by
  refine h.insertEmitter ?_
  by_cases he : e.emitter_uid = []
  · have he' := hc (by simp [Call.upsertUid, he, hf.2.1])
    exact recompute_eq_self_of_same he' (by simp [upserted, he, managed])
  · cases hn : db.emitters[e.emitter_uid]? with
    | none =>
      have he' := hc (by simpa [Call.upsertUid, he] using hn)
      exact recompute_eq_self_of_same he' (by simp [upserted, he, hn, managed])
    | some old =>
      exact recompute_eq_self_of_same (aggregated_iff.mp h _ _ hn)
        (by simp [upserted, he, hn, managed])

theorem Aggregated.deleteEmitter {db : EmitterDb} (h : db.Aggregated) (uid : Bytes) :
    (deleteEmitter db uid).1.Aggregated := by
  have hclear : ∀ (l : List Bytes) (db : EmitterDb), db.Aggregated →
      Aggregated { db with sightings := l.foldl clearSighting db.sightings } := by
    intro l
    induction l with
    | nil => exact fun db hdb => hdb
    | cons sid l ih =>
      intro db hdb
      refine ih { db with sightings := clearSighting db.sightings sid } ?_
      unfold clearSighting
      split
      · exact hdb
      · next s hs =>
        exact hdb.of_sightings fun u e he k hk => report_insert fun _ => by simp [hs, report]
  unfold EmitterDb.deleteEmitter
  split
  · exact h
  · next e _ => exact (hclear e.member_sighting_ids db h).eraseEmitter uid

theorem Aggregated.removeSighting {r : Removal} (h : r.db.Aggregated) (hx : (index r.db).Sound)
    (sid : Bytes) : (removeSighting r sid).db.Aggregated := by
  unfold EmitterDb.removeSighting
  split
  · exact h
  · next s hs =>
    -- only the emitter that the sighting names lists it
    have hother : ∀ (u : Bytes) (e : Emitter), r.db.emitters[u]? = some e →
        (s.emitter_uid ≠ [] → u ≠ s.emitter_uid) → ∀ k ∈ e.member_sighting_ids,
          (r.db.sightings[k]?).map report = ((r.db.sightings.erase sid)[k]?).map report := by
      intro u e he hu k hk
      have hks : sid ≠ k := by
        rintro rfl
        obtain ⟨s', hs', hu', hne⟩ := named_of_listed hx he hk
        obtain rfl : s = s' := Option.some.inj (hs.symm.trans hs')
        exact hu (hu' ▸ hne) hu'.symm
      simp [Std.TreeMap.getElem?_erase, hks]
    by_cases hu : s.emitter_uid = []
    · simp only [hu, if_true]
      exact h.of_sightings fun u e he => hother u e he fun hne => absurd hu hne
    · simp only [hu, if_false]
      split
      · next hn =>
        exact h.of_sightings fun u e he => hother u e he fun _ heq => by simp [← heq, he] at hn
      · next e he =>
        by_cases hempty : e.member_sighting_ids.filter (· ≠ sid) = []
        · rw [if_pos hempty]
          refine (h.eraseEmitter s.emitter_uid).of_sightings fun u e' he' => ?_
          rw [Std.TreeMap.getElem?_erase] at he'
          split_ifs at he' with hcmp
          exact hother u e' he' fun _ heq => hcmp (by simp [heq])
        · rw [if_neg hempty]
          exact h.replace (recompute_recompute _ _) fun u e' he' hne => hother u e' he' fun _ => hne

theorem Aggregated.deleteSightingByFilename {db : EmitterDb} (h : db.Aggregated)
    (hx : (index db).Sound) (filename : Bytes) (aff orph : List Bytes) :
    (deleteSightingByFilename db filename aff orph).1.db.Aggregated := by
  have hfold : ∀ (l : List Bytes) (r : Removal), r.db.Aggregated → (index r.db).Sound →
      (l.foldl EmitterDb.removeSighting r).db.Aggregated := by
    intro l
    induction l with
    | nil => exact fun r hr _ => hr
    | cons sid l ih =>
      exact fun r hr hrx => ih _ (hr.removeSighting hrx sid) ((moves_removeSighting r sid).sound hrx)
  exact hfold _ ⟨db, aff, orph⟩ h hx

theorem Aggregated.removeFromEmitter {db : EmitterDb} (h : db.Aggregated) (sid uid : Bytes) :
    (removeFromEmitter sid db uid).Aggregated ∧
      (removeFromEmitter sid db uid).sightings = db.sightings := by
  unfold EmitterDb.removeFromEmitter
  split_ifs
  · exact ⟨h, rfl⟩
  · split
    · exact ⟨h, rfl⟩
    · exact ⟨h.insertEmitter (recompute_recompute _ _), rfl⟩

theorem Aggregated.addToEmitter {db : EmitterDb} (h : db.Aggregated) (sid uid : Bytes) :
    (addToEmitter sid db uid).Aggregated := by
  unfold EmitterDb.addToEmitter
  split
  · exact h
  · exact h.insertEmitter (recompute_recompute _ _)

theorem Aggregated.linkSighting {db : EmitterDb} (h : db.Aggregated) (uid : Bytes) (now : ℤ)
    (sid target : Bytes) (action : UInt8) :
    (linkSighting uid now db sid target action).1.Aggregated := by
  unfold EmitterDb.linkSighting
  split
  · exact h
  · next s hs =>
    obtain ⟨hrem, hsight⟩ := h.removeFromEmitter sid s.emitter_uid
    -- a link changes the emitter and the status of a sighting, and no report
    have hstore : ∀ (db' : EmitterDb) (s' : Sighting), db'.Aggregated →
        db'.sightings = db.sightings → report s' = report s →
        Aggregated { db' with sightings := db'.sightings.insert sid s' } := by
      intro db' s' h' hsi hr
      exact h'.of_sightings fun u e he k hk => report_insert fun _ => by simp [hsi, hs, hr]
    split_ifs
    · exact hstore db _ h rfl rfl
    · exact h
    · exact hrem.addNewEmitter fun _ _ _ _ => by simp [hsight, hs]
    · exact (hstore _ { s with emitter_uid := target, match_status := MS_MANUAL } hrem hsight
        rfl).addToEmitter sid target
    · exact hstore _ _ hrem hsight rfl
    · exact h

/-! ## Runs -/

/-- A call that meets the condition keeps a database sound. -/
theorem sound_apply (score : Sighting → Emitter → ℚ) {db : EmitterDb} (hk : db.Keyed)
    (hx : (index db).Sound) {c : Call} (hf : db.Fresh c.uid) (hc : c.Current db) :
    (index (c.apply score db)).Sound := by
  by_cases hu : ∃ e, c.op = .upsert e
  · obtain ⟨e, he⟩ := hu
    simp only [Call.apply, Call.Current, he] at hc ⊢
    cases hn : db.emitters[c.upsertUid e]? with
    | some old => rwa [index_upsert_of_known hf hn]
    | none =>
      rw [index_upsert_of_unknown hn, Index.sound_create_iff hx]
      exact (hc hn).1
  · exact (moves_apply score hk hx hf fun e he => hu ⟨e, he⟩).sound hx

/-- A call that meets the condition keeps the aggregates of a sound database current. -/
theorem Aggregated.apply {db : EmitterDb} (h : db.Aggregated) (hx : (index db).Sound)
    (score : Sighting → Emitter → ℚ) {c : Call} (hf : db.Fresh c.uid) (hc : c.Current db) :
    (c.apply score db).Aggregated := by
  unfold Call.apply
  unfold Call.Current at hc
  split
  · next s hs =>
    simp only [hs] at hc
    exact h.ingest hx score c.uid c.now s hc
  · next e he =>
    simp only [he] at hc
    exact h.upsert hf fun hn => (hc hn).2
  · exact h.deleteEmitter _
  · exact h.deleteSightingByFilename hx _ _ _
  · exact h.linkSighting _ _ _ _ _

/-- In every run from an empty database whose calls meet the condition, aggregates are current. -/
theorem aggregated_of_run (score : Sighting → Emitter → ℚ) (calls : List Call) (db : EmitterDb)
    (h : Run (fun db c db' => c.Current db ∧ Step score db c db') {} calls db) : db.Aggregated := by
  have hinv : db.Keyed ∧ (index db).Sound ∧ db.Aggregated := by
    refine h.invariant (P := fun db => db.Keyed ∧ (index db).Sound ∧ db.Aggregated) ?_
      ⟨keyed_empty, exact_empty.sound, by intro uid e he; simp at he⟩
    rintro db c _ ⟨hc, hf, rfl⟩ ⟨hk, hx, ha⟩
    exact ⟨hk.apply score hf, sound_apply score hk hx hf hc, ha.apply hx score hf hc⟩
  exact hinv.2.2

/-- A sighting is reported twice with the same start and a new duration, and then its file is
deleted. -/
def renewedCalls : List Call :=
  [⟨.ingest { sighting_id := ascii "a", filename := ascii "f", freq_mhz := 100, start_utc := 7 },
      ascii "e_1", 5⟩,
   ⟨.ingest
      { sighting_id := ascii "a", filename := ascii "f", freq_mhz := 100, start_utc := 7
        duration_s := 3 }, ascii "e_2", 6⟩,
   ⟨.upsert { display_name := ascii "beacon" }, ascii "e_3", 7⟩,
   ⟨.deleteByFilename (ascii "f") [] [], ascii "e_4", 8⟩]

theorem aggregated_of_run_renewed : (renewedCalls.foldl (Call.apply scoreMatch) {}).Aggregated :=
  aggregated_of_run scoreMatch renewedCalls _
    (.cons ⟨by decide, by decide, rfl⟩ <| .cons ⟨by decide +kernel, by decide +kernel, rfl⟩ <|
      .cons ⟨by decide +kernel, by decide +kernel, rfl⟩ <|
      .cons ⟨trivial, by decide +kernel, rfl⟩ <| .nil _)

/-- A sighting is reported again with a corrected start. -/
def correctedCalls : List Call :=
  [⟨.ingest { sighting_id := ascii "a", freq_mhz := 100, start_utc := 7 }, ascii "e_1", 5⟩,
   ⟨.ingest { sighting_id := ascii "a", freq_mhz := 100, start_utc := 9 }, ascii "e_2", 6⟩]

theorem not_aggregated_of_corrected :
    ¬∀ (calls : List Call) (db : EmitterDb), Run (Step scoreMatch) {} calls db → db.Aggregated := by
  intro h
  have hrun : Run (Step scoreMatch) {} correctedCalls
      (correctedCalls.foldl (Call.apply scoreMatch) {}) :=
    .cons ⟨by decide, rfl⟩ <| .cons ⟨by decide +kernel, rfl⟩ <| .nil _
  have he : ∃ e, (correctedCalls.foldl (Call.apply scoreMatch) {}).emitters[ascii "e_1"]? = some e ∧
      e.last_seen_utc ≠ (recomputeEmitterAggregate
        (correctedCalls.foldl (Call.apply scoreMatch) {}).sightings e).last_seen_utc := by
    refine ⟨recomputeEmitterAggregate
      (({} : Std.TreeMap Bytes Sighting).insert (ascii "a") { start_utc := 7 })
      { makeEmitterFrom (ascii "e_1") 5 { freq_mhz := 100, start_utc := 7 } [] with
        member_sighting_ids := [ascii "a"] }, ?_⟩
    decide +kernel
  obtain ⟨e, he, hlast⟩ := he
  exact hlast (h _ _ hrun _ e he).2.2.1

end Bewe.EmitterDb
