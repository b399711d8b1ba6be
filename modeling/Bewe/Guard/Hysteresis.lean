import Bewe.Guard.Alerts

/-!
# The law of the alert book

What the book publishes for one event, over any ticks: the signals of an alarm that counts its hits
(`signals_published`). Each observation is a hit, also the second one in a tick, and a tick without one
leaves the hits that there are, until the event is dropped. So the book keeps the law of an alarm that has
to hold for `enter_ticks` ticks exactly where the first hits come one in each tick
(`alertBook_lawful_iff`).
-/

namespace Bewe.Guard

open Lib
open Lib.Alarm (Signal Pending Raised Signals Lawful Debounced)

/-! ## One observation -/

/-- The hits of an event, if there is one. -/
def hitsOf (e : Option Event) : ℕ := e.elim 0 Event.hits

/-- An event has been published exactly if it has had enough hits. -/
def Published (cfg : GuardConfig) (e : Option Event) : Prop :=
  ∀ f ∈ e, f.emitted = decide (cfg.enter_ticks ≤ f.hits)

/-- What is published while the hits of an event grow. -/
def Emits (enter h h' : ℕ) (out : List Signal) : Prop :=
  ∃ m, out = (if h < enter ∧ enter ≤ h' then [.new] else []) ++ List.replicate m .update ∧
    (h' < enter → m = 0)

theorem Emits.trans {enter h h' h'' : ℕ} {out out' : List Signal} (hle : h ≤ h') (hle' : h' ≤ h'')
    (ho : Emits enter h h' out) (ho' : Emits enter h' h'' out') : Emits enter h h'' (out ++ out') := by
  obtain ⟨m, rfl, hm⟩ := ho
  obtain ⟨m', rfl, hm'⟩ := ho'
  by_cases hnew : h' < enter
  · -- nothing has been published yet
    refine ⟨m', ?_, hm'⟩
    rw [hm hnew, if_neg (by omega)]
    by_cases hreach : enter ≤ h''
    · rw [if_pos ⟨hnew, hreach⟩, if_pos ⟨by omega, hreach⟩]
      rfl
    · rw [if_neg (by omega), if_neg (by omega)]
      rfl
  · refine ⟨m + m', ?_, fun hlt => by omega⟩
    rw [if_neg (show ¬(h' < enter ∧ enter ≤ h'') by omega), List.nil_append, List.append_assoc,
      List.replicate_append_replicate]
    by_cases hfirst : h < enter
    · rw [if_pos (by omega), if_pos (by omega)]
    · rw [if_neg (by omega), if_neg (by omega)]

/-- The states that are published for an event in some lines. -/
def statesOf (aid : UInt32) (ds : List Doc) : List Signal := (ds.filter fun d => d.aid = aid).map Doc.st

@[simp] theorem statesOf_nil (aid : UInt32) : statesOf aid [] = [] := rfl

@[simp] theorem statesOf_append (aid : UInt32) (ds ds' : List Doc) :
    statesOf aid (ds ++ ds') = statesOf aid ds ++ statesOf aid ds' := by
  simp [statesOf]

@[simp] theorem observe_tick (cfg : GuardConfig) (b : AlertBook) (o : Observation) :
    (b.observe cfg o).1.tick = b.tick := by
  unfold AlertBook.observe
  dsimp only
  split <;> rfl

/-- An observation of another event. -/
theorem observe_of_ne (cfg : GuardConfig) (b : AlertBook) {o : Observation} {aid : UInt32}
    (h : o.aid ≠ aid) : (b.observe cfg o).1.active.find aid = b.active.find aid ∧
      statesOf aid (b.observe cfg o).2 = [] := by
  unfold AlertBook.observe
  dsimp only
  split
  · exact ⟨Dict.find_set_of_ne _ (Ne.symm h) _, rfl⟩
  · refine ⟨Dict.find_set_of_ne _ (Ne.symm h) _, ?_⟩
    have hdoc : ∀ (e : Event) (st : Signal) (c : Clock), (e.doc o.aid st c).aid ≠ aid := fun _ _ _ => h
    simp [statesOf, hdoc]

/-- An observation of an event is a hit, and it is published with the one that makes enough of them. -/
theorem observe_self (cfg : GuardConfig) (b : AlertBook) (o : Observation)
    (h : Published cfg (b.active.find o.aid)) :
    ∃ e, (b.observe cfg o).1.active.find o.aid = some e ∧
      e.hits = hitsOf (b.active.find o.aid) + 1 ∧ e.miss = 0 ∧ e.tick = b.tick ∧
      Published cfg (some e) ∧
      Emits cfg.enter_ticks (hitsOf (b.active.find o.aid)) e.hits
        (statesOf o.aid (b.observe cfg o).2) := by
  have henter := cfg.enter_pos
  generalize he₀ : (b.active.find o.aid).getD (o.event b.tick) = e₀
  have hhits : e₀.hits = hitsOf (b.active.find o.aid) := by
    rw [← he₀]
    cases b.active.find o.aid <;> rfl
  have hemitted : e₀.emitted = decide (cfg.enter_ticks ≤ e₀.hits) := by
    rw [← he₀]
    cases hfind : b.active.find o.aid with
    | none =>
      have hzero : ¬cfg.enter_ticks ≤ 0 := by omega
      simp [Observation.event, hzero]
    | some f => exact h f hfind
  have hstates : ∀ st c, statesOf o.aid [(e₀.hit o b.tick).doc o.aid st c] = [st] := by
    intro st c
    simp [statesOf, Event.doc, make_doc]
  rw [← hhits]
  unfold AlertBook.observe
  rw [he₀]
  have hhit : (e₀.hit o b.tick).hits = e₀.hits + 1 := rfl
  have hhit' : (e₀.hit o b.tick).emitted = e₀.emitted := rfl
  by_cases hbefore : cfg.enter_ticks ≤ e₀.hits
  · -- it has been published before
    have hem : e₀.emitted = true := by rw [hemitted]; simpa using hbefore
    have hpub : ∀ f : Event, f.hits = e₀.hits + 1 → f.emitted = true → Published cfg (some f) := by
      rintro f hf hfe g hg
      obtain rfl := Option.some.inj hg
      rw [hfe, hf]
      symm
      simpa using hbefore.trans (Nat.le_succ _)
    have hdue : (e₀.hit o b.tick).due cfg o.clock.now = none ∨
        (e₀.hit o b.tick).due cfg o.clock.now = some .update := by
      simp only [Event.due, hhit', hem]
      split_ifs <;> simp_all
    rcases hdue with hdue | hdue
    · simp only [hdue]
      refine ⟨e₀.hit o b.tick, Dict.find_set_self .., rfl, rfl, rfl, hpub _ rfl hem, 0, ?_, fun _ => rfl⟩
      rw [if_neg (by omega)]
      rfl
    · simp only [hdue]
      refine ⟨_, Dict.find_set_self .., rfl, rfl, rfl, hpub _ rfl rfl, 1, ?_, fun hlt => ?_⟩
      · rw [if_neg (by omega), hstates]
        rfl
      · exact absurd hlt (by simp only [Event.emit, hhit]; omega)
  · have hem : e₀.emitted = false := by rw [hemitted]; simpa using hbefore
    by_cases hreach : e₀.hits + 1 < cfg.enter_ticks
    · have hdue : (e₀.hit o b.tick).due cfg o.clock.now = none := by
        simp only [Event.due, hhit, hhit', hem]
        rw [if_pos ⟨hreach, rfl⟩]
      simp only [hdue]
      refine ⟨e₀.hit o b.tick, Dict.find_set_self .., rfl, rfl, rfl, ?_, 0, ?_, fun _ => rfl⟩
      · intro g hg
        obtain rfl := Option.some.inj hg
        rw [hhit', hem, hhit]
        symm
        simpa using hreach
      · rw [if_neg (by rw [hhit]; omega)]
        rfl
    · have hdue : (e₀.hit o b.tick).due cfg o.clock.now = some .new := by
        simp only [Event.due, hhit, hhit', hem]
        rw [if_neg (fun hand => hreach hand.1)]
        rfl
      simp only [hdue]
      refine ⟨_, Dict.find_set_self .., rfl, rfl, rfl, ?_, 0, ?_, fun _ => rfl⟩
      · intro g hg
        obtain rfl := Option.some.inj hg
        simp only [Event.emit, hhit]
        symm
        simpa using hreach
      · rw [hstates, if_pos ⟨by omega, by simp only [Event.emit, hhit]; omega⟩]
        rfl

/-- The observations of a tick. -/
theorem each_observe (cfg : GuardConfig) (aid : UInt32) (os : List Observation) (b : AlertBook)
    (h : Published cfg (b.active.find aid)) :
    (AlertBook.each (AlertBook.observe cfg) b os).1.tick = b.tick ∧
      (os.countP (fun o => o.aid = aid) = 0 →
        (AlertBook.each (AlertBook.observe cfg) b os).1.active.find aid = b.active.find aid ∧
          statesOf aid (AlertBook.each (AlertBook.observe cfg) b os).2 = []) ∧
      (0 < os.countP (fun o => o.aid = aid) →
        ∃ e, (AlertBook.each (AlertBook.observe cfg) b os).1.active.find aid = some e ∧
          e.hits = hitsOf (b.active.find aid) + os.countP (fun o => o.aid = aid) ∧ e.miss = 0 ∧
          e.tick = b.tick ∧ Published cfg (some e) ∧
          Emits cfg.enter_ticks (hitsOf (b.active.find aid)) e.hits
            (statesOf aid (AlertBook.each (AlertBook.observe cfg) b os).2)) := by
  induction os generalizing b with
  | nil => exact ⟨rfl, fun _ => ⟨rfl, rfl⟩, fun hpos => absurd hpos (by simp)⟩
  | cons o os ih =>
    simp only [AlertBook.each, statesOf_append]
    by_cases ho : o.aid = aid
    · subst ho
      obtain ⟨e, hfind, hhits, hmiss, htick, hpub, hemits⟩ := observe_self cfg b o h
      have hpub' : Published cfg ((b.observe cfg o).1.active.find o.aid) := by rwa [hfind]
      obtain ⟨ihtick, ihnone, ihsome⟩ := ih (b.observe cfg o).1 hpub'
      refine ⟨by rw [ihtick, observe_tick], fun hzero => absurd hzero (by simp), fun _ => ?_⟩
      rw [hfind] at ihnone ihsome
      rw [List.countP_cons_of_pos (by simp)]
      rcases Nat.eq_zero_or_pos (os.countP fun p => p.aid = o.aid) with hzero | hpos
      · obtain ⟨hrest, hstates⟩ := ihnone hzero
        refine ⟨e, hrest, by rw [hhits, hzero], hmiss, htick, hpub, ?_⟩
        rw [hstates, List.append_nil]
        exact hemits
      · obtain ⟨f, hrest, hhits', hmiss', htick', hpub'', hemits'⟩ := ihsome hpos
        have hf : hitsOf (some e) = e.hits := rfl
        refine ⟨f, hrest, by rw [hhits', hf, hhits]; omega, hmiss', by rw [htick', observe_tick], hpub'', ?_⟩
        rw [hf] at hemits' hhits'
        exact hemits.trans (by omega) (by omega) hemits'
    · obtain ⟨hfind, hstates⟩ := observe_of_ne cfg b ho
      obtain ⟨ihtick, ihnone, ihsome⟩ := ih (b.observe cfg o).1 (by rwa [hfind])
      rw [List.countP_cons_of_neg (by simpa using ho), hstates, List.nil_append, ihtick, observe_tick]
      rw [hfind, observe_tick] at ihsome
      rw [hfind] at ihnone
      exact ⟨rfl, ihnone, ihsome⟩

/-! ## The end of a tick -/

/-- The end of a tick of another event. -/
theorem endEvent_of_ne (cfg : GuardConfig) (clock : UInt32 → Clock) (b : AlertBook) {k aid : UInt32}
    (h : k ≠ aid) : (b.endEvent cfg clock k).1.active.find aid = b.active.find aid ∧
      statesOf aid (b.endEvent cfg clock k).2 = [] := by
  rw [AlertBook.endEvent]
  cases hfind : b.active.find k with
  | none => exact ⟨rfl, rfl⟩
  | some e =>
    dsimp only
    split_ifs
    · exact ⟨rfl, rfl⟩
    · refine ⟨Dict.find_erase_of_ne _ (Ne.symm h), ?_⟩
      have hdoc : ∀ (f : Event) (st : Signal) (c : Clock), (f.doc k st c).aid ≠ aid := fun _ _ _ => h
      simp [statesOf, hdoc]
    · exact ⟨Dict.find_erase_of_ne _ (Ne.symm h), rfl⟩
    · exact ⟨Dict.find_set_of_ne _ (Ne.symm h) _, rfl⟩

@[simp] theorem endEvent_tick (cfg : GuardConfig) (clock : UInt32 → Clock) (b : AlertBook)
    (k : UInt32) : (b.endEvent cfg clock k).1.tick = b.tick := by
  rw [AlertBook.endEvent]
  cases b.active.find k with
  | none => rfl
  | some e =>
    dsimp only
    split_ifs <;> rfl

/-- What the end of a tick does with an event depends on the event and the tick only. -/
theorem endEvent_congr (cfg : GuardConfig) (clock : UInt32 → Clock) {b b' : AlertBook} {aid : UInt32}
    (hfind : b.active.find aid = b'.active.find aid) (htick : b.tick = b'.tick) :
    (b.endEvent cfg clock aid).1.active.find aid = (b'.endEvent cfg clock aid).1.active.find aid ∧
      (b.endEvent cfg clock aid).2 = (b'.endEvent cfg clock aid).2 := by
  rw [AlertBook.endEvent, AlertBook.endEvent, ← hfind, ← htick]
  cases hb : b.active.find aid with
  | none =>
    rw [hb] at hfind
    exact ⟨hb.trans hfind, rfl⟩
  | some e =>
    rw [hb] at hfind
    dsimp only
    split_ifs
    · exact ⟨hb.trans hfind, rfl⟩
    · exact ⟨by rw [Dict.find_erase_self, Dict.find_erase_self], rfl⟩
    · exact ⟨by rw [Dict.find_erase_self, Dict.find_erase_self], rfl⟩
    · exact ⟨by rw [Dict.find_set_self, Dict.find_set_self], rfl⟩

/-- The loop over the events comes to each of them once. -/
theorem each_endEvent (cfg : GuardConfig) (clock : UInt32 → Clock) (aid : UInt32) {ks : List UInt32}
    (hks : ks.Nodup) (b : AlertBook) :
    (AlertBook.each (AlertBook.endEvent cfg clock) b ks).1.tick = b.tick ∧
      (AlertBook.each (AlertBook.endEvent cfg clock) b ks).1.active.find aid =
        (if aid ∈ ks then (b.endEvent cfg clock aid).1.active.find aid else b.active.find aid) ∧
      statesOf aid (AlertBook.each (AlertBook.endEvent cfg clock) b ks).2 =
        if aid ∈ ks then statesOf aid (b.endEvent cfg clock aid).2 else [] := by
  induction ks generalizing b with
  | nil => exact ⟨rfl, rfl, rfl⟩
  | cons k ks ih =>
    obtain ⟨hk, hks⟩ := List.nodup_cons.1 hks
    obtain ⟨ihtick, ihfind, ihstates⟩ := ih hks (b.endEvent cfg clock k).1
    simp only [AlertBook.each, statesOf_append, ihtick, ihfind, ihstates, endEvent_tick, true_and]
    by_cases haid : k = aid
    · subst haid
      simp [hk]
    · obtain ⟨hfind, hstates⟩ := endEvent_of_ne cfg clock b haid
      obtain ⟨hcongr, hdocs⟩ := endEvent_congr cfg clock hfind (endEvent_tick cfg clock b k)
      have hmem : aid ∈ k :: ks ↔ aid ∈ ks := by simp [Ne.symm haid]
      simp only [hmem, hcongr, hdocs, hfind, hstates, List.nil_append, true_and]

/-- The end of a tick for one event. -/
theorem end_tick_spec (cfg : GuardConfig) (b : AlertBook) (clock : UInt32 → Clock) (aid : UInt32) :
    (b.end_tick cfg clock).1.tick = b.tick + 1 ∧
      (b.end_tick cfg clock).1.active.find aid = (b.endEvent cfg clock aid).1.active.find aid ∧
      statesOf aid (b.end_tick cfg clock).2 = statesOf aid (b.endEvent cfg clock aid).2 := by
  obtain ⟨htick, hfind, hstates⟩ := each_endEvent cfg clock aid b.active.nodup b
  simp only [AlertBook.end_tick, htick, hfind, hstates, true_and]
  by_cases hmem : aid ∈ b.active.keys
  · rw [if_pos hmem, if_pos hmem]
    exact ⟨rfl, rfl⟩
  · have hnone : b.active.find aid = none := by
      rw [b.active.mem_keys] at hmem
      simpa using hmem
    have hend : b.endEvent cfg clock aid = (b, []) := by rw [AlertBook.endEvent, hnone]
    rw [if_neg hmem, if_neg hmem, hend]
    exact ⟨rfl, rfl⟩

/-! ## A tick -/

/-- The counters of an event. -/
def counters (e : Event) : Pending := ⟨e.hits, e.miss⟩

/-- An event between two ticks, and the counters that it has. -/
structure Tracks (cfg : GuardConfig) (b : AlertBook) (aid : UInt32) (s : Option Pending) : Prop where
  counters : (b.active.find aid).map counters = s
  published : Published cfg (b.active.find aid)
  tick : ∀ e ∈ b.active.find aid, e.tick < b.tick

/-- What a tick with `c` observations publishes for an event. -/
structure TickSignals (cfg : GuardConfig) (s : Option Pending) (c : ℕ) (out : List Signal) : Prop where
  hit : 0 < c → Emits cfg.enter_ticks (s.elim 0 Pending.hits) (s.elim 0 Pending.hits + c) out
  cleared : c = 0 → Raised cfg.enter_ticks s → Alarm.step cfg.clear_ticks s 0 = none → out = [.clear]
  quiet : c = 0 → ¬(Raised cfg.enter_ticks s ∧ Alarm.step cfg.clear_ticks s 0 = none) → out = []

theorem Tracks.hitsOf {cfg : GuardConfig} {b : AlertBook} {aid : UInt32} {s : Option Pending}
    (h : Tracks cfg b aid s) : hitsOf (b.active.find aid) = s.elim 0 Pending.hits := by
  rw [← h.counters]
  cases b.active.find aid <;> rfl

/-- A tick is a step of the counters. -/
theorem run_spec {cfg : GuardConfig} {b : AlertBook} {aid : UInt32} {s : Option Pending}
    (h : Tracks cfg b aid s) (k : Tick) :
    Tracks cfg (b.run cfg k).1 aid
        (Alarm.step cfg.clear_ticks s (k.observations.countP fun o => o.aid = aid)) ∧
      TickSignals cfg s (k.observations.countP fun o => o.aid = aid)
        (statesOf aid (b.run cfg k).2) := by
  obtain ⟨htick, hnone, hsome⟩ := each_observe cfg aid k.observations b h.published
  obtain ⟨hend, hfind, hstates⟩ :=
    end_tick_spec cfg (AlertBook.each (AlertBook.observe cfg) b k.observations).1 k.clock aid
  simp only [AlertBook.run, statesOf_append, hstates]
  generalize AlertBook.each (AlertBook.observe cfg) b k.observations = r at *
  generalize hcount : (k.observations.countP fun o => o.aid = aid) = c at *
  generalize hend' : r.1.end_tick cfg k.clock = t at *
  rcases Nat.eq_zero_or_pos c with rfl | hpos
  · -- nothing is observed
    obtain ⟨hsame, hout⟩ := hnone rfl
    rw [hout, List.nil_append]
    cases hb : b.active.find aid with
    | none =>
      have hs : s = none := by rw [← h.counters, hb]; rfl
      have hstop : r.1.endEvent cfg k.clock aid = (r.1, []) := by
        rw [AlertBook.endEvent, hsame, hb]
      rw [hstop] at hfind ⊢
      have hgone : t.1.active.find aid = none := by rw [hfind, hsame, hb]
      subst hs
      refine ⟨⟨by rw [hgone]; rfl, ?_, ?_⟩, fun hlt => absurd hlt (by simp), ?_, fun _ _ => rfl⟩
      · rw [hgone]
        exact fun f hf => absurd hf (by simp)
      · rw [hgone]
        exact fun f hf => absurd hf (by simp)
      · rintro - ⟨p, hp, -⟩
        exact absurd hp (by simp)
    | some e =>
      -- one more miss, which ends the alert at the limit
      have hs : s = some (counters e) := by rw [← h.counters, hb]; rfl
      have hpub : e.emitted = decide (cfg.enter_ticks ≤ e.hits) := h.published e hb
      have hold : e.tick < b.tick := h.tick e hb
      have hne : e.tick ≠ r.1.tick := by omega
      have hraised : Raised cfg.enter_ticks s ↔ e.emitted = true := by
        rw [hs, hpub, decide_eq_true_eq]
        constructor
        · rintro ⟨p, hp, hle⟩
          obtain rfl := Option.some.inj hp
          exact hle
        · exact fun hle => ⟨_, rfl, hle⟩
      have hstep : Alarm.step cfg.clear_ticks s 0 =
          if cfg.clear_ticks ≤ e.miss + 1 then none else some ⟨e.hits, e.miss + 1⟩ := by rw [hs]; rfl
      rw [AlertBook.endEvent, hsame, hb] at hfind ⊢
      dsimp only at hfind ⊢
      rw [if_neg hne] at hfind ⊢
      by_cases hgone : cfg.clear_ticks ≤ e.miss + 1
      · rw [if_pos hgone] at hfind hstep ⊢
        have hfind' : t.1.active.find aid = none := hfind.trans (Dict.find_erase_self _ _)
        refine ⟨⟨by rw [hfind', hstep]; rfl, ?_, ?_⟩, fun hlt => absurd hlt (by simp), ?_, ?_⟩
        · rw [hfind']
          exact fun f hf => absurd hf (by simp)
        · rw [hfind']
          exact fun f hf => absurd hf (by simp)
        · intro _ hr _
          simp [hraised.1 hr, statesOf, Event.doc, make_doc]
        · intro _ hno
          have hem : ¬e.emitted = true := fun hem => hno ⟨hraised.2 hem, hstep⟩
          simp [hem]
      · rw [if_neg hgone] at hfind hstep ⊢
        have hfind' := hfind.trans (Dict.find_set_self _ _ _)
        refine ⟨⟨by rw [hfind', hstep]; rfl, ?_, ?_⟩, fun hlt => absurd hlt (by simp), ?_, fun _ _ => rfl⟩
        · rw [hfind']
          rintro f hf
          obtain rfl := Option.some.inj hf
          exact hpub
        · rw [hfind']
          rintro f hf
          obtain rfl := Option.some.inj hf
          show e.tick < t.1.tick
          omega
        · intro _ _ hno
          rw [hstep] at hno
          exact absurd hno (by simp)
  · -- it is observed, so the end of the tick leaves it
    obtain ⟨e, hfound, hhits, hmiss, htick', hpub, hemits⟩ := hsome hpos
    have hstop : r.1.endEvent cfg k.clock aid = (r.1, []) := by
      rw [AlertBook.endEvent, hfound]
      dsimp only
      rw [if_pos (htick'.trans htick.symm)]
    rw [hstop] at hfind ⊢
    have hfind' : t.1.active.find aid = some e := hfind.trans hfound
    have hcounters : Alarm.step cfg.clear_ticks s c = some (counters e) := by
      obtain ⟨d, rfl⟩ : ∃ d, c = d + 1 := ⟨c - 1, by omega⟩
      rw [counters, hhits, hmiss, h.hitsOf]
      cases s with
      | none => simp [Alarm.step]
      | some p => simp [Alarm.step]
    refine ⟨⟨by rw [hfind', hcounters]; rfl, by rwa [hfind'], ?_⟩, fun _ => ?_, ?_, ?_⟩
    · rw [hfind']
      rintro f hf
      obtain rfl := Option.some.inj hf
      omega
    · rw [hhits, h.hitsOf] at hemits
      rw [statesOf_nil, List.append_nil]
      exact hemits
    · exact fun hzero => absurd hzero (by omega)
    · exact fun hzero => absurd hzero (by omega)

/-! ## All ticks -/

theorem tracks_bookAt (cfg : GuardConfig) (ks : ℕ → Tick) (aid : UInt32) (n : ℕ) :
    Tracks cfg (bookAt cfg ks n) aid (Alarm.state cfg.clear_ticks (observed ks aid) n) := by
  induction n with
  | zero => exact ⟨rfl, fun f hf => absurd hf (by simp [bookAt, AlertBook.init]),
      fun f hf => absurd hf (by simp [bookAt, AlertBook.init])⟩
  | succ n ih => exact (run_spec ih (ks n)).1

/-- What is published for an event are the signals of an alarm that counts its observations. -/
theorem signals_published (cfg : GuardConfig) (ks : ℕ → Tick) (aid : UInt32) :
    Signals cfg.enter_ticks cfg.clear_ticks (observed ks aid) (published cfg ks aid) := by
  have henter := cfg.enter_pos
  have hspec : ∀ n, TickSignals cfg (Alarm.state cfg.clear_ticks (observed ks aid) n)
      (observed ks aid n) (published cfg ks aid n) := fun n => (run_spec (tracks_bookAt cfg ks aid n) (ks n)).2
  -- hits only grow, until the event is dropped
  have hraised : ∀ s : Option Pending, Raised cfg.enter_ticks s ↔
      cfg.enter_ticks ≤ s.elim 0 Pending.hits := by
    intro s
    cases s with
    | none => exact iff_of_false (by simp [Raised]) (by simp; omega)
    | some p => simp [Raised]
  have hhit : ∀ s : Option Pending, ∀ c, 0 < c →
      (Raised cfg.enter_ticks (Alarm.step cfg.clear_ticks s c) ↔
        cfg.enter_ticks ≤ s.elim 0 Pending.hits + c) := by
    intro s c hc
    obtain ⟨d, rfl⟩ : ∃ d, c = d + 1 := ⟨c - 1, by omega⟩
    rw [hraised]
    cases s with
    | none => simp [Alarm.step]
    | some p => simp [Alarm.step]
  have hquiet : ∀ s : Option Pending, Raised cfg.enter_ticks (Alarm.step cfg.clear_ticks s 0) →
      Raised cfg.enter_ticks s := by
    rintro (_ | p) ⟨q, hq, hle⟩
    · exact absurd hq (by simp [Alarm.step])
    · rw [Alarm.step] at hq
      split_ifs at hq
      · exact absurd hq (by simp)
      · obtain rfl := Option.some.inj hq
        exact ⟨p, rfl, hle⟩
  refine ⟨fun n hr => ?_, fun n hr => ?_, fun n hr hr' => ?_, fun n hr hr' => ?_⟩
  all_goals
    have hs := hspec n
    generalize hstate : Alarm.state cfg.clear_ticks (observed ks aid) n = s at hs
    generalize hc : observed ks aid n = c at hs
  · obtain ⟨hno, hyes⟩ := hr
    rw [Alarm.state, hstate, hc] at hyes
    rw [hstate] at hno
    rcases Nat.eq_zero_or_pos c with rfl | hpos
    · exact absurd (hquiet s hyes) hno
    · rw [hhit s c hpos] at hyes
      rw [hraised] at hno
      obtain ⟨m, hm, -⟩ := hs.hit hpos
      rw [if_pos ⟨by omega, hyes⟩] at hm
      exact ⟨m, hm⟩
  · obtain ⟨hyes, hgone⟩ := hr
    rw [Alarm.state, hstate, hc] at hgone
    rw [hstate] at hyes
    rcases Nat.eq_zero_or_pos c with rfl | hpos
    · exact hs.cleared rfl hyes hgone
    · obtain ⟨d, rfl⟩ : ∃ d, c = d + 1 := ⟨c - 1, by omega⟩
      cases s <;> exact absurd hgone (by simp [Alarm.step])
  · rw [Alarm.state, hstate, hc] at hr'
    rw [hstate] at hr
    rcases Nat.eq_zero_or_pos c with rfl | hpos
    · refine ⟨0, hs.quiet rfl fun hand => ?_⟩
      rw [hand.2] at hr'
      exact absurd hr' (by simp [Raised])
    · obtain ⟨m, hm, -⟩ := hs.hit hpos
      rw [hraised] at hr
      rw [if_neg (by omega)] at hm
      exact ⟨m, hm⟩
  · rw [Alarm.state, hstate, hc] at hr'
    rw [hstate] at hr
    rcases Nat.eq_zero_or_pos c with rfl | hpos
    · exact hs.quiet rfl fun hand => hr hand.1
    · obtain ⟨m, hm, hzero⟩ := hs.hit hpos
      rw [hhit s c hpos] at hr'
      rw [if_neg (by omega), hzero (by omega)] at hm
      exact hm

/-- The book keeps the law in the first ticks exactly where the observations that publish an event come one
in each tick, from the first one of the event on. -/
theorem alertBook_lawful_iff (cfg : GuardConfig) (ks : ℕ → Tick) (aid : UInt32) (n : ℕ) :
    Lawful cfg.enter_ticks cfg.clear_ticks (observed ks aid) (published cfg ks aid) n ↔
      Debounced cfg.enter_ticks cfg.clear_ticks (observed ks aid) n :=
  Alarm.lawful_iff cfg.enter_pos cfg.clear_pos (signals_published cfg ks aid) n

/-- A ship near a zone. -/
def nearZone : Observation where
  typ := 2
  sev := 2
  mmsi := 440000001
  mmsi2 := 0
  lat := lit 35
  lon := lit 129
  score := lit 50
  cpa := lit (-1)
  tcpa := lit 300
  msg := ascii "REEF-A"
  reco := []
  clock := ⟨lit 0, 0, lit 0⟩

/-- A ship that is near a zone in every other tick. -/
def flicker (n : ℕ) : Tick := ⟨if n % 2 = 0 then [nearZone] else [], fun _ => ⟨lit 0, 0, lit 0⟩⟩

/-- The ship is published as new in its third tick, without having been near the zone in the second. -/
theorem flicker_not_lawful :
    Alarm.Signal.new ∈ published {} flicker nearZone.aid 2 ∧
      ¬Lawful 2 3 (observed flicker nearZone.aid) (published {} flicker nearZone.aid) 3 := by
  have hnew : Alarm.Signal.new ∈ published {} flicker nearZone.aid 2 := by decide +kernel
  refine ⟨hnew, fun h => ?_⟩
  obtain ⟨j, hj, hpos⟩ := h.new 2 (by norm_num) hnew 1 (by norm_num)
  obtain rfl : j = 1 := by omega
  exact absurd hpos (by decide)

end Bewe.Guard
