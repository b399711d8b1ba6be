import Bewe.EmitterDb.Model
import Bewe.Lib.Binary
import Bewe.Lib.MaxBy

/-!
# What a score says

`score_match_` in `float`s, and when it does what it is for: that a sighting which contradicts an emitter
scores no better than one that leaves the point open or agrees, and that a sighting joins an emitter by
itself only if something besides the frequency agrees (`score_iff`). Of each attribute the score knows
whether it was compared and agreed, so that there are finitely many scores.
-/

namespace Bewe.EmitterDb

open Lib

/-! ## The score -/

/-- The nearest `float`. -/
def float (q : ℚ) : ℚ := roundBits 24 q

/-- The attributes that are compared besides the frequency. -/
inductive Attribute
  | modulation
  | protocol
  | tags
  deriving DecidableEq

/-- What comparing an attribute says. -/
inductive Verdict
  | uncompared
  | agrees
  | differs
  deriving DecidableEq

instance : Fintype Verdict := ⟨{.uncompared, .agrees, .differs}, fun v => by cases v <;> decide⟩

/-- An attribute of a sighting. -/
def attrOf (a : Attribute) (s : Sighting) : Bytes :=
  match a with
  | .modulation => s.modulation
  | .protocol => s.protocol
  | .tags => s.tags

/-- An attribute of an emitter. -/
def emitterAttr (a : Attribute) (e : Emitter) : Bytes :=
  match a with
  | .modulation => e.modulation
  | .protocol => e.protocol
  | .tags => e.tags_id

/-- The same sighting with another value of an attribute. -/
def withAttr (a : Attribute) (s : Sighting) (x : Bytes) : Sighting :=
  match a with
  | .modulation => { s with modulation := x }
  | .protocol => { s with protocol := x }
  | .tags => { s with tags := x }

/-- Whether values of a sighting and of an emitter agree: regardless of case, and for the tags if those of
the emitter occur in those of the sighting. -/
def sameAttr (a : Attribute) (x y : Bytes) : Bool :=
  match a with
  | .tags => InfoParse.lower y <:+: InfoParse.lower x
  | _ => InfoParse.lower x = InfoParse.lower y

/-- An attribute is compared where both sides state it. -/
def verdict (a : Attribute) (s : Sighting) (e : Emitter) : Verdict :=
  if attrOf a s ≠ [] ∧ emitterAttr a e ≠ [] then
    if sameAttr a (attrOf a s) (emitterAttr a e) then .agrees else .differs
  else .uncompared

/-- `w_freq`, `w_mod`, `w_proto`, and `w_tags`. -/
def w_freq : ℚ := float (3 / 5)
@[inherit_doc w_freq] def w_mod : ℚ := float (1 / 5)
@[inherit_doc w_freq] def w_proto : ℚ := float (3 / 20)
@[inherit_doc w_freq] def w_tags : ℚ := float (1 / 20)

/-- What a comparison adds to `total_w` and `score`. -/
def weigh (w : ℚ) (v : Verdict) (acc : ℚ × ℚ) : ℚ × ℚ :=
  match v with
  | .uncompared => acc
  | .agrees => (float (acc.1 + w), float (acc.2 + w))
  | .differs => (float (acc.1 + w), acc.2)

/-- The score within the tolerance of the frequency. -/
def scoreOf (m p t : Verdict) : ℚ :=
  let acc := weigh w_tags t (weigh w_proto p (weigh w_mod m (w_freq, w_freq)))
  if acc.1 ≤ 0 then 0
  else
    let normalized := float (acc.2 / acc.1)
    if acc.1 = w_freq then min w_freq normalized else normalized

/-- The frequency lies within the tolerance of the emitter. -/
def InTolerance (s : Sighting) (e : Emitter) : Prop :=
  float (|float (s.freq_mhz - e.freq_center_mhz)| * 1000) ≤ e.freq_tolerance_khz

instance (s : Sighting) (e : Emitter) : Decidable (InTolerance s e) := inferInstanceAs (Decidable (_ ≤ _))

/-- `score_match_`. -/
def scoreMatch (s : Sighting) (e : Emitter) : ℚ :=
  if InTolerance s e then
    scoreOf (verdict .modulation s e) (verdict .protocol s e) (verdict .tags s e)
  else 0

/-- What an attribute makes of the scores. -/
def scoreAt (a : Attribute) (v : Verdict) (s : Sighting) (e : Emitter) : ℚ :=
  match a with
  | .modulation => scoreOf v (verdict .protocol s e) (verdict .tags s e)
  | .protocol => scoreOf (verdict .modulation s e) v (verdict .tags s e)
  | .tags => scoreOf (verdict .modulation s e) (verdict .protocol s e) v

/-! ## The scores -/

theorem scoreOf_modulation : ∀ p t : Verdict, scoreOf .differs p t ≤ scoreOf .agrees p t ∧
    (scoreOf .differs p t ≤ scoreOf .uncompared p t ↔ ¬(p = .uncompared ∧ t = .uncompared)) := by
  decide +kernel

theorem scoreOf_protocol : ∀ m t : Verdict, scoreOf m .differs t ≤ scoreOf m .agrees t ∧
    (scoreOf m .differs t ≤ scoreOf m .uncompared t ↔ ¬(m = .uncompared ∧ t = .uncompared)) := by
  decide +kernel

theorem scoreOf_tags : ∀ m p : Verdict, scoreOf m p .differs ≤ scoreOf m p .agrees ∧
    (scoreOf m p .differs ≤ scoreOf m p .uncompared ↔ ¬(m = .uncompared ∧ p = .uncompared)) := by
  decide +kernel

theorem threshold_iff : ∀ m p t : Verdict,
    17 / 20 ≤ scoreOf m p t ∧ m ≠ .agrees ∧ p ≠ .agrees ∧ t ≠ .agrees ↔
      m = .uncompared ∧ p = .uncompared ∧ t = .differs := by
  decide +kernel

theorem tagsOnly_lt_iff : ∀ m p t : Verdict,
    (scoreOf .uncompared .uncompared .differs < scoreOf m p t ↔
      (m = .agrees ∨ p = .agrees ∨ t = .agrees) ∧ m ≠ .differs ∧ p ≠ .differs) ∧
    (scoreOf .uncompared .uncompared .differs = scoreOf m p t ↔
      m = .uncompared ∧ p = .uncompared ∧ t = .differs) := by
  decide +kernel

theorem scoreOf_pos : ∀ m p t : Verdict, 0 < scoreOf m p t := by decide +kernel

/-! ## Contradictions -/

/-- A sighting that leaves an attribute open or agrees in it scores at least as well as one that differs
from it in this attribute only, and contradicts the emitter there. -/
def NeverStrengthens (a : Attribute) (s : Sighting) (e : Emitter) : Prop :=
  attrOf a s = [] ∨ sameAttr a (attrOf a s) (emitterAttr a e) = true →
    ∀ x, x ≠ [] → emitterAttr a e = [] ∨ sameAttr a x (emitterAttr a e) = false →
      scoreMatch (withAttr a s x) e ≤ scoreMatch s e

/-- The attribute is open, and no other one is compared: then the score is capped. -/
structure Bare (a : Attribute) (s : Sighting) (e : Emitter) : Prop where
  inTolerance : InTolerance s e
  empty : attrOf a s = []
  stated : emitterAttr a e ≠ []
  others : ∀ b, b ≠ a → verdict b s e = .uncompared

theorem scoreMatch_eq (a : Attribute) (s : Sighting) (e : Emitter) :
    scoreMatch s e = if InTolerance s e then scoreAt a (verdict a s e) s e else 0 := by
  cases a <;> rfl

theorem scoreAt_withAttr (a : Attribute) (v : Verdict) (s : Sighting) (x : Bytes) (e : Emitter) :
    scoreAt a v (withAttr a s x) e = scoreAt a v s e := by
  cases a <;> rfl

@[simp] theorem attrOf_withAttr (a : Attribute) (s : Sighting) (x : Bytes) :
    attrOf a (withAttr a s x) = x := by
  cases a <;> rfl

theorem inTolerance_withAttr (a : Attribute) (s : Sighting) (x : Bytes) (e : Emitter) :
    InTolerance (withAttr a s x) e ↔ InTolerance s e := by
  cases a <;> rfl

/-- Of one attribute, differing is no better than agreeing, and better than being open exactly where
nothing else is compared. -/
theorem scoreAt_spec (a : Attribute) (s : Sighting) (e : Emitter) :
    scoreAt a .differs s e ≤ scoreAt a .agrees s e ∧
      (scoreAt a .differs s e ≤ scoreAt a .uncompared s e ↔
        ¬∀ b, b ≠ a → verdict b s e = .uncompared) := by
  have hforall : ∀ P : Attribute → Prop, (∀ b, P b) ↔ P .modulation ∧ P .protocol ∧ P .tags := fun P =>
    ⟨fun h => ⟨h _, h _, h _⟩, fun h b => by cases b <;> simp only [h]⟩
  cases a with
  | modulation => simpa [scoreAt, hforall] using scoreOf_modulation (verdict .protocol s e) (verdict .tags s e)
  | protocol => simpa [scoreAt, hforall] using scoreOf_protocol (verdict .modulation s e) (verdict .tags s e)
  | tags => simpa [scoreAt, hforall] using scoreOf_tags (verdict .modulation s e) (verdict .protocol s e)

theorem exists_differing (a : Attribute) {y : Bytes} (hy : y ≠ []) :
    ∃ x, x ≠ [] ∧ sameAttr a x y = false := by
  have hlower : ∀ c : UInt8, c = 0 ∨ c = 1 → InfoParse.lower [c] = [c] := by
    rintro c (rfl | rfl) <;> rfl
  have hne : InfoParse.lower y ≠ [] := by simpa [InfoParse.lower] using hy
  obtain ⟨c, hc, hcy⟩ : ∃ c : UInt8, (c = 0 ∨ c = 1) ∧ InfoParse.lower y ≠ [c] := by
    by_cases h0 : InfoParse.lower y = [0]
    · exact ⟨1, Or.inr rfl, by rw [h0]; decide⟩
    · exact ⟨0, Or.inl rfl, h0⟩
  refine ⟨[c], by simp, ?_⟩
  cases a with
  | modulation => simpa [sameAttr, hlower c hc] using Ne.symm hcy
  | protocol => simpa [sameAttr, hlower c hc] using Ne.symm hcy
  | tags =>
    have hinfix : ¬InfoParse.lower y <:+: [c] := by
      intro hin
      rcases List.sublist_singleton.1 hin.sublist with h | h
      · exact hne h
      · exact hcy h
    simpa [sameAttr, hlower c hc] using hinfix

theorem neverStrengthens_iff (a : Attribute) (s : Sighting) (e : Emitter) :
    NeverStrengthens a s e ↔ ¬Bare a s e := by
  obtain ⟨hagree, hopen⟩ := scoreAt_spec a s e
  have hverdict : ∀ x, x ≠ [] → emitterAttr a e ≠ [] → sameAttr a x (emitterAttr a e) = false →
      verdict a (withAttr a s x) e = .differs := by
    intro x hx he hsame
    simp [verdict, hx, he, hsame]
  constructor
  · rintro h ⟨htol, hempty, hstated, hothers⟩
    obtain ⟨x, hx, hdiff⟩ := exists_differing a hstated
    have hle := h (Or.inl hempty) x hx (Or.inr hdiff)
    have hnone : verdict a s e = .uncompared := by simp [verdict, hempty]
    rw [scoreMatch_eq a, scoreMatch_eq a, if_pos ((inTolerance_withAttr a s x e).2 htol),
      if_pos htol, scoreAt_withAttr, hverdict x hx hstated hdiff, hnone] at hle
    exact hopen.1 hle hothers
  · intro hbare hfirst x hx hsecond
    rw [scoreMatch_eq a, scoreMatch_eq a s, scoreAt_withAttr]
    by_cases htol : InTolerance s e
    · rw [if_pos ((inTolerance_withAttr a s x e).2 htol), if_pos htol]
      by_cases hstated : emitterAttr a e = []
      · -- the emitter does not state the attribute
        simp [verdict, hstated]
      · rw [hverdict x hx hstated (hsecond.resolve_left hstated)]
        by_cases hempty : attrOf a s = []
        · have hnone : verdict a s e = .uncompared := by simp [verdict, hempty]
          rw [hnone]
          exact hopen.2 fun hothers => hbare ⟨htol, hempty, hstated, hothers⟩
        · have hsame := hfirst.resolve_left hempty
          have hyes : verdict a s e = .agrees := by simp [verdict, hempty, hstated, hsame]
          rw [hyes]
          exact hagree
    · rw [if_neg (fun h => htol ((inTolerance_withAttr a s x e).1 h)), if_neg htol]

/-! ## Joining by itself -/

/-- The tags alone are compared, and they differ. -/
structure TagsOnly (s : Sighting) (e : Emitter) : Prop where
  inTolerance : InTolerance s e
  modulation : verdict .modulation s e = .uncompared
  protocol : verdict .protocol s e = .uncompared
  tags : verdict .tags s e = .differs

/-- Something agrees, and neither the modulation nor the protocol differs. -/
structure Supported (s : Sighting) (e : Emitter) : Prop where
  inTolerance : InTolerance s e
  agrees : ∃ a, verdict a s e = .agrees
  modulation : verdict .modulation s e ≠ .differs
  protocol : verdict .protocol s e ≠ .differs

/-- A new sighting that joins an emitter by itself agrees with it in more than the frequency. -/
def JoinsWithSupport (uid : Bytes) (now : ℤ) (db : EmitterDb) (s : Sighting) : Prop :=
  let r := ingestSighting scoreMatch uid now db s
  db.sightings[s.sighting_id]? = none → r.2.2.status = MS_AUTO_HIGH →
    ∀ e, db.emitters[r.2.2.emitter_uid]? = some e → ∃ a, verdict a s e = .agrees

theorem scoreMatch_nonneg (s : Sighting) (e : Emitter) : 0 ≤ scoreMatch s e := by
  rw [scoreMatch]
  split_ifs
  · exact (scoreOf_pos _ _ _).le
  · exact le_rfl

theorem bestMatch_spec (s : Sighting) (m : Std.TreeMap Bytes Emitter) :
    ((bestMatch scoreMatch s m).1 = -1 ∧ ∀ uid : Bytes, m[uid]? = none) ∨
      ∃ e, m[(bestMatch scoreMatch s m).2]? = some e ∧
        (bestMatch scoreMatch s m).1 = scoreMatch s e ∧
        ∀ (uid : Bytes) (e' : Emitter), m[uid]? = some e' → scoreMatch s e' ≤ scoreMatch s e := by
  have hfold : bestMatch scoreMatch s m = maxBy Prod.fst (-1, [])
      (m.toList.map fun kv => (scoreMatch s kv.2, kv.1)) := by
    rw [maxBy, List.foldl_map]
    rfl
  obtain ⟨hmem, hle⟩ := maxBy_spec (Prod.fst : ℚ × Bytes → ℚ) (-1, [])
    (m.toList.map fun kv => (scoreMatch s kv.2, kv.1))
  rw [← hfold] at hmem hle
  have hle' : ∀ (uid : Bytes) (e : Emitter), m[uid]? = some e →
      scoreMatch s e ≤ (bestMatch scoreMatch s m).1 := by
    intro uid e he
    have hkv : (uid, e) ∈ m.toList := Std.TreeMap.mem_toList_iff_getElem?_eq_some.mpr he
    exact hle _ (List.mem_cons_of_mem _ (List.mem_map.2 ⟨(uid, e), hkv, rfl⟩))
  rcases List.mem_cons.1 hmem with hnone | hmem
  · refine Or.inl ⟨by rw [hnone], fun uid => ?_⟩
    by_contra hsome
    obtain ⟨e, he⟩ := Option.ne_none_iff_exists'.1 hsome
    have hlow := hle' uid e he
    rw [hnone] at hlow
    have := scoreMatch_nonneg s e
    linarith
  · obtain ⟨kv, hkv, heq⟩ := List.mem_map.1 hmem
    have he : m[kv.1]? = some kv.2 := Std.TreeMap.mem_toList_iff_getElem?_eq_some.mp hkv
    rw [← heq] at hle' ⊢
    exact Or.inr ⟨kv.2, he, rfl, hle'⟩

theorem ingestSighting_status (uid : Bytes) (now : ℤ) {db : EmitterDb} {s : Sighting}
    (hnew : db.sightings[s.sighting_id]? = none) :
    ((ingestSighting scoreMatch uid now db s).2.2.status = MS_AUTO_HIGH ↔
      0 < s.freq_mhz ∧ 17 / 20 ≤ (bestMatch scoreMatch s db.emitters).1) ∧
    (0 < s.freq_mhz ∧ 17 / 20 ≤ (bestMatch scoreMatch s db.emitters).1 →
      (ingestSighting scoreMatch uid now db s).2.2.emitter_uid =
        (bestMatch scoreMatch s db.emitters).2) := by
  have hpending : MS_PENDING ≠ MS_AUTO_HIGH := by decide
  have hlow : MS_AUTO_LOW ≠ MS_AUTO_HIGH := by decide
  rw [ingestSighting, hnew]
  dsimp only
  by_cases hfreq : 0 < s.freq_mhz
  · rw [if_neg (not_not_intro hfreq)]
    by_cases hhigh : 17 / 20 ≤ (bestMatch scoreMatch s db.emitters).1
    · rw [if_pos hhigh]
      exact ⟨iff_of_true rfl ⟨hfreq, hhigh⟩, fun _ => rfl⟩
    · rw [if_neg hhigh]
      refine ⟨iff_of_false ?_ fun h => hhigh h.2, fun h => absurd h.2 hhigh⟩
      by_cases hmiddle : 11 / 20 ≤ (bestMatch scoreMatch s db.emitters).1
      · rw [if_pos hmiddle]
        exact hpending
      · rw [if_neg hmiddle]
        exact hlow
  · rw [if_pos hfreq]
    exact ⟨iff_of_false hpending fun h => hfreq h.1, fun h => absurd h.1 hfreq⟩

/-- A sighting joins an emitter without an agreement exactly where tags alone differ, and no emitter agrees
with it and differs in the tags at most. -/
theorem joinsWithSupport_iff (uid : Bytes) (now : ℤ) (db : EmitterDb) (s : Sighting) :
    JoinsWithSupport uid now db s ↔
      ¬(db.sightings[s.sighting_id]? = none ∧ 0 < s.freq_mhz ∧
        (∃ (u : Bytes) (e : Emitter), db.emitters[u]? = some e ∧ TagsOnly s e) ∧
        ∀ (u : Bytes) (e : Emitter), db.emitters[u]? = some e → ¬Supported s e) := by
  have htags : ∀ e, TagsOnly s e → scoreMatch s e = scoreOf .uncompared .uncompared .differs := by
    intro e h
    rw [scoreMatch, if_pos h.inTolerance, h.modulation, h.protocol, h.tags]
  have hhigh : 17 / 20 ≤ scoreOf .uncompared .uncompared .differs := by decide +kernel
  have hlow : ∀ e, 17 / 20 ≤ scoreMatch s e → InTolerance s e := by
    intro e h
    by_contra htol
    rw [scoreMatch, if_neg htol] at h
    norm_num at h
  constructor
  · rintro h ⟨hnew, hfreq, ⟨u, e, he, htag⟩, hnone⟩
    obtain ⟨hstatus, huid⟩ := ingestSighting_status uid now hnew
    rcases bestMatch_spec s db.emitters with ⟨-, hempty⟩ | ⟨b, hb, hbest, hmax⟩
    · rw [hempty u] at he
      exact absurd he (by simp)
    · have hge := hmax u e he
      rw [htags e htag] at hge
      have hjoin : 0 < s.freq_mhz ∧ 17 / 20 ≤ (bestMatch scoreMatch s db.emitters).1 :=
        ⟨hfreq, by rw [hbest]; exact hhigh.trans hge⟩
      obtain ⟨a, ha⟩ := h hnew (hstatus.2 hjoin) b (by rw [huid hjoin]; exact hb)
      have htol := hlow b (hhigh.trans hge)
      rw [scoreMatch, if_pos htol] at hge
      obtain ⟨hlt, heq⟩ := tagsOnly_lt_iff (verdict .modulation s b) (verdict .protocol s b)
        (verdict .tags s b)
      rcases hge.lt_or_eq with hbetter | hequal
      · obtain ⟨-, hm, hp⟩ := hlt.1 hbetter
        exact hnone _ b hb ⟨htol, ⟨a, ha⟩, hm, hp⟩
      · obtain ⟨hm, hp, ht⟩ := heq.1 hequal
        cases a <;> simp_all
  · intro h hnew hauto b hb
    obtain ⟨hstatus, huid⟩ := ingestSighting_status uid now hnew
    obtain ⟨hfreq, hge⟩ := hstatus.1 hauto
    rw [huid ⟨hfreq, hge⟩] at hb
    by_contra hno
    push Not at hno
    rcases bestMatch_spec s db.emitters with ⟨hminus, -⟩ | ⟨b', hb', hbest, hmax⟩
    · rw [hminus] at hge
      norm_num at hge
    · obtain rfl : b' = b := Option.some.inj (hb'.symm.trans hb)
      rw [hbest] at hge
      have htol := hlow b' hge
      rw [scoreMatch, if_pos htol] at hge
      obtain ⟨hm, hp, ht⟩ := (threshold_iff _ _ _).1 ⟨hge, hno _, hno _, hno _⟩
      refine h ⟨hnew, hfreq, ⟨_, b', hb, htol, hm, hp, ht⟩, fun u e he hsup => ?_⟩
      -- an emitter that agrees scores better
      have hle := hmax u e he
      rw [htags b' ⟨htol, hm, hp, ht⟩, scoreMatch, if_pos hsup.inTolerance] at hle
      refine absurd ((tagsOnly_lt_iff _ _ _).1.2 ⟨?_, hsup.modulation, hsup.protocol⟩) hle.not_gt
      obtain ⟨a, ha⟩ := hsup.agrees
      cases a with
      | modulation => exact Or.inl ha
      | protocol => exact Or.inr (Or.inl ha)
      | tags => exact Or.inr (Or.inr ha)

/-- When contradicting evidence never strengthens a match, and when a sighting joins by itself only with an
agreement besides the frequency. -/
theorem score_iff (a : Attribute) (s : Sighting) (e : Emitter) (uid : Bytes) (now : ℤ)
    (db : EmitterDb) :
    (NeverStrengthens a s e ↔ ¬Bare a s e) ∧
      (JoinsWithSupport uid now db s ↔
        ¬(db.sightings[s.sighting_id]? = none ∧ 0 < s.freq_mhz ∧
          (∃ (u : Bytes) (e : Emitter), db.emitters[u]? = some e ∧ TagsOnly s e) ∧
          ∀ (u : Bytes) (e : Emitter), db.emitters[u]? = some e → ¬Supported s e)) :=
  ⟨neverStrengthens_iff a s e, joinsWithSupport_iff uid now db s⟩

/-- An emitter that states its modulation and its tags. -/
def taxi : Emitter :=
  { emitter_uid := ascii "e_1", freq_center_mhz := 150, modulation := ascii "FM", tags_id := ascii "taxi" }

/-- A sighting on its frequency. -/
def onFrequency : Sighting := { sighting_id := ascii "s", freq_mhz := 150 }

/-- Tags that the emitter does not have. -/
def onPatrol : Sighting := { onFrequency with tags := ascii "police" }

/-- A database with this emitter. -/
def taxis : EmitterDb := { emitters := ({} : Std.TreeMap Bytes Emitter).insert (ascii "e_1") taxi }

/-- Another modulation raises the score of a sighting that stated none, and tags that differ let one join by
itself. -/
theorem score_contradiction :
    ¬NeverStrengthens .modulation onFrequency taxi ∧
      ¬JoinsWithSupport (ascii "e_2") 0 taxis onPatrol := by
  rw [neverStrengthens_iff, joinsWithSupport_iff, not_not, not_not]
  have htol : InTolerance onFrequency taxi ∧ InTolerance onPatrol taxi := by decide +kernel
  have hothers : ∀ b, b ≠ Attribute.modulation → verdict b onFrequency taxi = .uncompared := by
    intro b hb
    cases b with
    | modulation => exact absurd rfl hb
    | protocol => decide
    | tags => decide
  refine ⟨⟨htol.1, by decide, by decide, hothers⟩, by simp [taxis], by norm_num [onPatrol, onFrequency],
    ⟨ascii "e_1", taxi, by simp [taxis], htol.2, by decide, by decide, by decide⟩, ?_⟩
  intro u e he hsup
  rw [taxis, Std.TreeMap.getElem?_insert] at he
  split_ifs at he with hu
  · obtain rfl := Option.some.inj he
    obtain ⟨a, ha⟩ := hsup.agrees
    cases a <;> exact absurd ha (by decide)
  · simp at he

end Bewe.EmitterDb
