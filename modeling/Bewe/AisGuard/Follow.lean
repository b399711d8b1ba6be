import Bewe.AisGuard.Tracker

/-!
# Following the files

The files of the days grow, days go by, and the tracker polls. As long as nothing is raised, what has
been handed to `_ingest` after a poll are the complete lines of the files that a poll has found on their
day (`Follows.handed_of_poll`), and a poll raises just if one of these lines cannot be read. So the
tracker reads every line of the files once and in order if and only if each of them can be read, and
each file that has one was found on its day (`faithful_polls_iff`).
-/

namespace Bewe.AisGuard

open Lib
open EmitterDb (lineFeed)

/-! ## Runs -/

/-- The files of the days, and the day that it is. -/
structure Env where
  files : ℕ → Option Bytes := fun _ => none
  day : ℕ := 0

/-- Some bytes are appended to the file of the day, a day ends, or the tracker polls. -/
inductive Event
  | append (bytes : Bytes)
  | midnight
  | poll

/-- What an event does to the files. -/
def Env.step (e : Env) : Event → Env
  | .append bytes =>
    { e with files := Function.update e.files e.day (some ((e.files e.day).getD [] ++ bytes)) }
  | .midnight => { e with day := e.day + 1 }
  | .poll => e

/-- The complete lines of the file of a day. -/
def Env.lines (e : Env) (d : ℕ) : List Bytes := (e.files d).elim [] (fullLines lineFeed)

/-- The complete lines of all files. -/
def Env.allLines (e : Env) : List Bytes := (List.range (e.day + 1)).flatMap e.lines

/-- The files, and on which days a poll has found the file of the day. -/
structure Seen where
  env : Env := {}
  found : ℕ → Bool := fun _ => false

/-- What an event does to them. -/
def Seen.step (v : Seen) (x : Event) : Seen where
  env := v.env.step x
  found :=
    match x with
    | .poll => fun d => v.found d || (d = v.env.day && (v.env.files d).isSome)
    | _ => v.found

/-- The files after some events. -/
def seen (es : List Event) : Seen := es.foldl Seen.step {}

/-- The complete lines of the files that were found. -/
def Seen.linesBelow (v : Seen) (n : ℕ) : List Bytes :=
  (List.range n).flatMap fun d => if v.found d then v.env.lines d else []

/-- The daemon: the files, the tracker, the lines that were handed to `_ingest`, and what was raised and
has ended the daemon.
-/
structure Daemon where
  env : Env := {}
  store : TrackStore := {}
  handed : List Bytes := []
  raised : Option PyError := none

section

variable (py : Python) (track_window : ℕ)

/-- A poll of the daemon, if it is still there. -/
def Daemon.poll (w : Daemon) : Daemon :=
  if w.raised.isSome then w
  else
    let p := w.store.poll py track_window w.env.files w.env.day
    { w with store := p.store, handed := w.handed ++ p.handed, raised := p.raised }

/-- What an event does to the daemon. -/
def Daemon.step (w : Daemon) : Event → Daemon
  | .poll => w.poll py track_window
  | x => { w with env := w.env.step x }

/-- The daemon after some events. -/
def run (es : List Event) : Daemon := es.foldl (Daemon.step py track_window) {}

/-- A line from which `_ingest` raises nothing. -/
def Readable (raw : Bytes) : Prop := ∃ r, reading py raw = .ok r

/-- Nothing is raised, every complete line of the files has been handed to `_ingest` once and in order,
and the counters count them.
-/
structure Daemon.Faithful (w : Daemon) : Prop where
  raised : w.raised = none
  handed : w.handed = w.env.allLines
  counted : w.store.data.n_lines + w.store.data.n_bad = w.env.allLines.length

/-- The lines can be read, and the files in which there are some were found on their days. -/
structure Seen.Kept (v : Seen) : Prop where
  readable : ∀ d, ∀ l ∈ v.env.lines d, Readable py l
  found : ∀ d, v.env.lines d ≠ [] → v.found d = true

end

/-! ## Files -/

theorem seen_concat (es : List Event) (x : Event) : seen (es ++ [x]) = (seen es).step x := by
  rw [seen, List.foldl_concat]
  rfl

theorem run_concat (py : Python) (w : ℕ) (es : List Event) (x : Event) :
    run py w (es ++ [x]) = (run py w es).step py w x := by
  rw [run, List.foldl_concat]
  rfl

/-- What holds of the files and of the days on which they were found. -/
structure Seen.Valid (v : Seen) : Prop where
  none_after : ∀ d, v.env.day < d → v.env.files d = none
  found_le : ∀ d, v.found d = true → d ≤ v.env.day

theorem Seen.Valid.not_found {v : Seen} (h : v.Valid) {d : ℕ} (hd : v.env.day < d) :
    v.found d = false := by
  cases hf : v.found d with
  | false => rfl
  | true => exact absurd (h.found_le d hf) (Nat.not_le.2 hd)

theorem Seen.Valid.step {v : Seen} (h : v.Valid) (x : Event) : (v.step x).Valid := by
  cases x with
  | append bytes =>
    refine ⟨fun d hd => ?_, h.found_le⟩
    change Function.update v.env.files v.env.day _ d = none
    rw [Function.update_of_ne (show d ≠ v.env.day from ne_of_gt hd)]
    exact h.none_after d hd
  | midnight =>
    refine ⟨fun d hd => h.none_after d (Nat.lt_of_succ_lt hd), fun d hd => ?_⟩
    exact (h.found_le d hd).trans (Nat.le_succ _)
  | poll =>
    refine ⟨h.none_after, fun d hd => ?_⟩
    rcases Bool.or_eq_true_iff.1 hd with hd | hd
    · exact h.found_le d hd
    · exact (of_decide_eq_true (Bool.and_eq_true_iff.1 hd).1).le

theorem valid_seen (es : List Event) : (seen es).Valid := by
  induction es using List.reverseRecOn with
  | nil => exact ⟨fun _ _ => rfl, fun _ h => absurd h Bool.false_ne_true⟩
  | append_singleton es x ih =>
    rw [seen_concat]
    exact ih.step x

theorem Env.lines_of_none {e : Env} {d : ℕ} (h : e.files d = none) : e.lines d = [] := by
  rw [Env.lines, h]
  rfl

theorem Env.lines_of_some {e : Env} {d : ℕ} {b : Bytes} (h : e.files d = some b) :
    e.lines d = fullLines lineFeed b := by
  rw [Env.lines, h]
  rfl

theorem Env.lines_append_of_ne {e : Env} {d : ℕ} (h : d ≠ e.day) (bytes : Bytes) :
    (e.step (.append bytes)).lines d = e.lines d := by
  unfold Env.lines Env.step
  dsimp only
  rw [Function.update_of_ne h]

section Below

variable {v v' : Seen}

theorem Seen.linesBelow_succ (v : Seen) (n : ℕ) :
    v.linesBelow (n + 1) = v.linesBelow n ++ if v.found n then v.env.lines n else [] := by
  rw [linesBelow, List.range_succ, List.flatMap_append, List.flatMap_singleton]
  rfl

theorem Seen.linesBelow_congr {n : ℕ}
    (h : ∀ d < n, (if v.found d then v.env.lines d else []) =
      if v'.found d then v'.env.lines d else []) : v.linesBelow n = v'.linesBelow n := by
  unfold linesBelow
  exact List.flatMap_congr fun d hd => h d (List.mem_range.1 hd)

theorem Seen.linesBelow_of_not_found {n m : ℕ} (hnm : n ≤ m)
    (h : ∀ d, n ≤ d → d < m → v.found d = false) : v.linesBelow m = v.linesBelow n := by
  induction m, hnm using Nat.le_induction with
  | base => rfl
  | succ m hnm ih =>
    rw [linesBelow_succ, h m hnm (Nat.lt_succ_self m), if_neg Bool.false_ne_true, List.append_nil]
    exact ih fun d hn hd => h d hn (Nat.lt_succ_of_lt hd)

theorem Seen.mem_linesBelow {n : ℕ} {l : Bytes} :
    l ∈ v.linesBelow n ↔ ∃ d < n, v.found d = true ∧ l ∈ v.env.lines d := by
  unfold linesBelow
  rw [List.mem_flatMap]
  constructor
  · rintro ⟨d, hd, hl⟩
    split_ifs at hl with hf
    · exact ⟨d, List.mem_range.1 hd, hf, hl⟩
    · exact absurd hl List.not_mem_nil
  · rintro ⟨d, hd, hf, hl⟩
    exact ⟨d, List.mem_range.2 hd, by rwa [if_pos hf]⟩

/-- Nothing is missing just if every file with a line was found. -/
theorem Seen.linesBelow_eq_iff {n : ℕ} : v.linesBelow n = (List.range n).flatMap v.env.lines ↔
    ∀ d < n, v.env.lines d ≠ [] → v.found d = true := by
  induction n with
  | zero => exact ⟨fun _ d hd => absurd hd (Nat.not_lt_zero d), fun _ => rfl⟩
  | succ n ih =>
    -- what is below is never longer than the whole
    have hle : ∀ m, (v.linesBelow m).length ≤ ((List.range m).flatMap v.env.lines).length := by
      intro m
      induction m with
      | zero => exact le_rfl
      | succ m ihm =>
        rw [linesBelow_succ, List.range_succ, List.flatMap_append, List.flatMap_singleton,
          List.length_append, List.length_append]
        split_ifs
        · exact Nat.add_le_add_right ihm _
        · exact Nat.add_le_add ihm (Nat.zero_le _)
    rw [linesBelow_succ, List.range_succ, List.flatMap_append, List.flatMap_singleton]
    constructor
    · intro h
      have hlen := congrArg List.length h
      rw [List.length_append, List.length_append] at hlen
      have hn := hle n
      have hlast : (if v.found n = true then v.env.lines n else []).length = (v.env.lines n).length := by
        have hshort : (if v.found n = true then v.env.lines n else []).length ≤
            (v.env.lines n).length := by
          split_ifs
          · exact le_rfl
          · exact Nat.zero_le _
        omega
      have hbelow := List.append_inj_left' h hlast
      intro d hd hne
      rcases Nat.lt_succ_iff_lt_or_eq.1 hd with hd | rfl
      · exact ih.1 hbelow d hd hne
      · by_contra hf
        rw [if_neg hf] at hlast
        exact hne (List.length_eq_zero_iff.1 hlast.symm)
    · intro h
      rw [ih.2 fun d hd => h d (Nat.lt_succ_of_lt hd)]
      congr 1
      split_ifs with hf
      · rfl
      · by_contra hne
        exact hf (h n (Nat.lt_succ_self n) fun hnil => hne hnil.symm)

end Below

/-! ## One line, and one file -/

section

variable {py : Python} {track_window : ℕ}

/-! ### Lines that raise nothing -/

/-- The values that `int` takes. -/
def Python.TakesInt (py : Python) : Json → Prop
  | .bool _ => True
  | .int _ => True
  | .float (.fin _ _) => True
  | .str s => (py.int s).isSome
  | _ => False

/-- The values that `float` takes. -/
def Python.TakesFloat (py : Python) : Json → Prop
  | .bool _ => True
  | .int z => |roundBits 53 z| < 2 ^ 1024
  | .float _ => True
  | .str s => (py.float s).isSome
  | _ => False

/-- The values of a record are of types that are taken, where they are looked at. -/
structure Python.TakesRecord (py : Python) (d : List (PyStr × Json)) : Prop where
  t : py.TakesInt (getOr d "t" (.int 0))
  pos : (get d "hp").any Json.isOne = true →
    py.TakesFloat (getOr d "lat" (.float (.ofRat double_pos 0))) ∧
      py.TakesFloat (getOr d "lon" (.float (.ofRat double_pos 0))) ∧
      py.TakesFloat (getOr d "sog" (.float (.ofRat double_pos (-1)))) ∧
      py.TakesFloat (getOr d "cog" (.float (.ofRat double_pos (-1))))
  st : ∀ v, get d "st" = some v → v.truthy = true → py.TakesInt v
  nav : ∀ v, get d "ns" = some v → py.TakesInt v
  matched : ∀ v, get d "aist" = some v → py.TakesInt v ∧ py.TakesInt (getOr d "aim" (.int 0))
  rf : ∀ v, get d "cfo" = some v →
    py.TakesFloat v ∧ py.TakesFloat (getOr d "rssi" (.float (.ofRat double_pos 0)))

/-- `int` takes the values of these types. -/
theorem exists_toInt_iff (v : Json) : (∃ z, py.toInt v = .ok z) ↔ py.TakesInt v := by
  cases v with
  | float x => cases x <;> simp [Python.toInt, Python.TakesInt]
  | str s => cases h : py.int s <;> simp [Python.toInt, Python.TakesInt, h, orValueError]
  | _ => simp [Python.toInt, Python.TakesInt]

/-- `float` takes the values of these. -/
theorem exists_toFloat_iff (v : Json) : (∃ x, py.toFloat v = .ok x) ↔ py.TakesFloat v := by
  cases v with
  | int z =>
    by_cases h : |roundBits 53 z| < 2 ^ 1024
    · simp [Python.toFloat, Python.TakesFloat, h]
    · simp [Python.toFloat, Python.TakesFloat, h]
  | str s => cases h : py.float s <;> simp [Python.toFloat, Python.TakesFloat, h, orValueError]
  | _ => simp [Python.toFloat, Python.TakesFloat]

/-- What comes behind a value is reached if the value is there. -/
theorem exists_bind_iff {α β : Type} {x : Except PyError α} {f : α → Except PyError β} {p : Prop}
    (h : ∀ a, (∃ b, f a = .ok b) ↔ p) : (∃ b, (x >>= f) = .ok b) ↔ (∃ a, x = .ok a) ∧ p := by
  cases x with
  | error e => simp [bind, Except.bind]
  | ok a => simpa [bind, Except.bind] using h a

theorem exists_pure {α : Type} (a : α) : (∃ b, (pure a : Except PyError α) = .ok b) ↔ True :=
  iff_of_true ⟨a, rfl⟩ trivial

/-- A position is only looked at where `hp` is 1. -/
theorem exists_readPos_iff (d : List (PyStr × Json)) :
    (∃ r, readPos py d = .ok r) ↔ ((get d "hp").any Json.isOne = true →
      py.TakesFloat (getOr d "lat" (.float (.ofRat double_pos 0))) ∧
      py.TakesFloat (getOr d "lon" (.float (.ofRat double_pos 0))) ∧
      py.TakesFloat (getOr d "sog" (.float (.ofRat double_pos (-1)))) ∧
      py.TakesFloat (getOr d "cog" (.float (.ofRat double_pos (-1))))) := by
  unfold readPos
  split_ifs with h
  · rw [exists_bind_iff fun lat => exists_bind_iff fun lon => exists_bind_iff fun sog =>
      exists_bind_iff fun cog => exists_pure _]
    simp only [exists_toFloat_iff, h, forall_const, and_true]
  · exact iff_of_true ⟨_, rfl⟩ fun hp => absurd hp h

/-- A value that may be missing is looked at where it is there. -/
theorem exists_optional_iff {α : Type} {o : Option Json} {a : α} {f : Json → Except PyError α}
    {p : Json → Prop} (h : ∀ v, (∃ r, f v = .ok r) ↔ p v) :
    (∃ r, (match o with
      | none => pure a
      | some v => f v : Except PyError α) = .ok r) ↔ ∀ v, o = some v → p v := by
  cases o with
  | none => exact iff_of_true ⟨a, rfl⟩ (by simp)
  | some v => simpa using h v

/-- A ship type is only looked at where it is set. -/
theorem exists_readShipType_iff (d : List (PyStr × Json)) :
    (∃ r, readShipType py d = .ok r) ↔
      ∀ v, get d "st" = some v → v.truthy = true → py.TakesInt v := by
  unfold readShipType
  refine exists_optional_iff fun v => ?_
  split_ifs with h
  · rw [exists_bind_iff fun z => exists_pure _, exists_toInt_iff, and_true, forall_prop_of_true h]
  · exact iff_of_true ⟨_, rfl⟩ fun ht => absurd ht h

theorem exists_readNav_iff (d : List (PyStr × Json)) :
    (∃ r, readNav py d = .ok r) ↔ ∀ v, get d "ns" = some v → py.TakesInt v := by
  unfold readNav
  refine exists_optional_iff fun v => ?_
  rw [exists_bind_iff fun z => exists_pure _, exists_toInt_iff, and_true]

theorem exists_readMatch_iff (d : List (PyStr × Json)) :
    (∃ r, readMatch py d = .ok r) ↔
      ∀ v, get d "aist" = some v → py.TakesInt v ∧ py.TakesInt (getOr d "aim" (.int 0)) := by
  unfold readMatch
  refine exists_optional_iff fun v => ?_
  rw [exists_bind_iff fun z => exists_bind_iff fun w => exists_pure _, exists_toInt_iff,
    exists_toInt_iff, and_true]

theorem exists_readRf_iff (d : List (PyStr × Json)) :
    (∃ r, readRf py d = .ok r) ↔ ∀ v, get d "cfo" = some v →
      py.TakesFloat v ∧ py.TakesFloat (getOr d "rssi" (.float (.ofRat double_pos 0))) := by
  unfold readRf
  refine exists_optional_iff fun v => ?_
  rw [exists_bind_iff fun x => exists_bind_iff fun y => exists_pure _, exists_toFloat_iff,
    exists_toFloat_iff, and_true]

/-- The values of a record are read one after another. -/
theorem Python.takesRecord_iff {d : List (PyStr × Json)} {make : ℤ → _ → _ → _ → _ → _ → Record} :
    (∃ r, (do
      let t_ms ← py.toInt (getOr d "t" (.int 0))
      let pos ← readPos py d
      let st ← readShipType py d
      let nav ← readNav py d
      let matched ← readMatch py d
      let rf ← readRf py d
      pure (some (make t_ms pos st nav matched rf))) = Except.ok r) ↔ py.TakesRecord d := by
  rw [exists_bind_iff fun t => exists_bind_iff fun pos => exists_bind_iff fun st =>
    exists_bind_iff fun nav => exists_bind_iff fun matched => exists_bind_iff fun rf =>
    exists_pure _]
  rw [exists_toInt_iff, exists_readPos_iff, exists_readShipType_iff, exists_readNav_iff,
    exists_readMatch_iff, exists_readRf_iff, and_true]
  exact ⟨fun ⟨ht, hpos, hst, hnav, hmatched, hrf⟩ => ⟨ht, hpos, hst, hnav, hmatched, hrf⟩,
    fun h => ⟨h.t, h.pos, h.st, h.nav, h.matched, h.rf⟩⟩

/-- **What can be read:** a line that is no JSON, or an object whose MMSI is taken and, where this is
positive and `crc` is 1, the values of the record are. -/
theorem readable_iff (raw : Bytes) :
    Readable py raw ↔ ∀ v, py.loads raw = some v → ∃ d, v = .dict d ∧
      let mmsi := getOr d "mmsi" (.int 0)
      let mmsi := if mmsi.truthy then mmsi else .int 0
      py.TakesInt mmsi ∧ ((∃ z > 0, py.toInt mmsi = .ok z) →
        (getOr d "crc" (.int 0)).isOne = true → py.TakesRecord d) := by
  unfold Readable reading
  cases hv : py.loads raw with
  | none => simp
  | some v =>
    cases v with
    | dict d =>
      simp only [Option.some.injEq, forall_eq', Json.dict.injEq, exists_eq_left']
      unfold readRecord
      dsimp only
      generalize (if (getOr d "mmsi" (.int 0)).truthy = true then getOr d "mmsi" (.int 0)
        else .int 0) = m
      rw [← exists_toInt_iff]
      cases hm : py.toInt m with
      | error e => simp [bind, Except.bind]
      | ok z =>
        by_cases hz : z ≤ 0 ∨ (!(getOr d "crc" (.int 0)).isOne) = true
        · refine iff_of_true ⟨none, ?_⟩ ⟨⟨z, rfl⟩, ?_⟩
          · change (if _ then _ else _) = _
            rw [if_pos hz]
            rfl
          · rintro ⟨z', hpos, hz'⟩ hcrc
            obtain rfl := Except.ok.inj hz'
            simp [hcrc] at hz
            omega
        · refine Iff.trans ?_ (and_iff_right (⟨z, rfl⟩ : ∃ z', Except.ok z = Except.ok z')).symm
          rw [not_or, Bool.not_eq_true', Bool.not_eq_false] at hz
          have htaken : (∃ z' > 0, Except.ok z = (.ok z' : Except PyError ℤ)) ∧
              (getOr d "crc" (.int 0)).isOne = true := ⟨⟨z, by omega, rfl⟩, hz.2⟩
          rw [forall_prop_of_true htaken.1, forall_prop_of_true htaken.2, ← Python.takesRecord_iff]
          refine exists_congr fun r => ?_
          change (if _ then _ else _) = _ ↔ _
          rw [if_neg]
          simp [hz]
    | _ => simp

/-! ### What a line does -/

variable (track_window) in
theorem ingest_of_reading {raw : Bytes} {r : Option Record} (h : reading py raw = .ok r)
    (s : Tracks) : ∃ taken s', ingest py track_window raw s = .ok (taken, s') ∧
      s'.n_lines + s'.n_bad = s.n_lines + s.n_bad + 1 := by
  unfold ingest
  rw [h]
  cases r with
  | none => exact ⟨false, _, rfl, by dsimp only; omega⟩
  | some r => exact ⟨true, _, rfl, by dsimp only; omega⟩

variable (track_window) in
theorem takes_of_readable {raw : Bytes} (h : Readable py raw) :
    Takes (ingestCounted py track_window) raw := by
  intro s
  obtain ⟨r, hr⟩ := h
  obtain ⟨taken, s', hs', -⟩ := ingest_of_reading track_window hr s.2
  unfold ingestCounted
  rw [hs']
  exact ⟨_, rfl⟩

variable (track_window) in
theorem refuses_of_not_readable {raw : Bytes} (h : ¬Readable py raw) :
    Refuses (ingestCounted py track_window) raw := by
  intro s
  cases hr : reading py raw with
  | ok r => exact absurd ⟨r, hr⟩ h
  | error e =>
    unfold ingestCounted ingest
    rw [hr]
    exact ⟨e, rfl⟩

variable (py track_window) in
theorem takes_or_refuses (raw : Bytes) :
    Takes (ingestCounted py track_window) raw ∨ Refuses (ingestCounted py track_window) raw := by
  rcases Classical.em (Readable py raw) with h | h
  · exact Or.inl (takes_of_readable track_window h)
  · exact Or.inr (refuses_of_not_readable track_window h)

/-- How many lines have been counted. -/
def TrackStore.count (s : TrackStore) : ℕ := s.data.n_lines + s.data.n_bad

theorem count_of_ingestCounted {raw : Bytes} {s s' : ℕ × Tracks}
    (h : ingestCounted py track_window raw s = .ok s') :
    s'.2.n_lines + s'.2.n_bad = s.2.n_lines + s.2.n_bad + 1 := by
  rcases Classical.em (Readable py raw) with ⟨r, hr⟩ | hbad
  · obtain ⟨taken, t, ht, hcount⟩ := ingest_of_reading track_window hr s.2
    unfold ingestCounted at h
    rw [ht] at h
    obtain rfl := Except.ok.inj h
    exact hcount
  · obtain ⟨e, he⟩ := refuses_of_not_readable track_window hbad s
    rw [he] at h
    exact absurd h (by simp)

variable {files : ℕ → Option Bytes} {f : OpenFile} {b : Bytes} {s : TrackStore}

/-- The rest of a file has the lines that are still to be handed out. -/
theorem lines_eq_of_buf (hbuf : s.buf = lastLine lineFeed (b.take f.pos)) :
    fullLines lineFeed b = fullLines lineFeed (b.take f.pos) ++
      fullLines lineFeed (s.buf ++ b.drop f.pos) := by
  rw [hbuf, ← fullLines_append, List.take_append_drop]

variable (track_window) in
/-- `_drain` hands out the rest of the lines of the file. -/
theorem drain_of_readable (hfile : files f.day = some b) (hpos : f.pos ≤ b.length)
    (hbuf : s.buf = lastLine lineFeed (b.take f.pos))
    (h : ∀ l ∈ fullLines lineFeed (s.buf ++ b.drop f.pos), Readable py l) :
    (s.drain py track_window files f).raised = none ∧
      (s.drain py track_window files f).handed = fullLines lineFeed (s.buf ++ b.drop f.pos) ∧
      (s.drain py track_window files f).store.file = some ⟨f.day, b.length⟩ ∧
      (s.drain py track_window files f).store.buf = lastLine lineFeed b ∧
      (s.drain py track_window files f).store.count =
        s.count + (fullLines lineFeed (s.buf ++ b.drop f.pos)).length := by
  have hno : lineFeed ∉ s.buf := by
    rw [hbuf]
    exact not_mem_lastLine _
  have hlast : lastLine lineFeed (s.buf ++ b.drop f.pos) = lastLine lineFeed b := by
    rw [hbuf, ← lastLine_append, List.take_append_drop]
  obtain ⟨s', hs', hcount⟩ := drain_of_takes (q := lineFeed)
    (P := fun (t : ℕ × Tracks) handed => t.2.n_lines + t.2.n_bad = s.count + handed.length)
    (fun {l t t' handed} hk ht => by
      rw [count_of_ingestCounted ht, hk, List.length_append, List.length_singleton]
      omega)
    (show 0 < readSize by decide) hno
    (fun l hl => takes_of_readable track_window (h l hl))
    (Nat.lt_succ_self (b.drop f.pos).length) (s := (0, s.data)) [] rfl
  rw [List.nil_append] at hs' hcount
  unfold TrackStore.drain
  rw [hfile, Option.getD_some]
  dsimp only
  rw [hs']
  refine ⟨rfl, rfl, ?_, hlast, hcount⟩
  dsimp only
  rw [List.length_nil, List.length_drop, Nat.sub_zero, Nat.add_sub_cancel' hpos]

variable (track_window) in
theorem drain_of_not_readable (hfile : files f.day = some b)
    (hbuf : s.buf = lastLine lineFeed (b.take f.pos))
    (h : ∃ l ∈ fullLines lineFeed (s.buf ++ b.drop f.pos), ¬Readable py l) :
    (s.drain py track_window files f).raised.isSome = true := by
  have hno : lineFeed ∉ s.buf := by
    rw [hbuf]
    exact not_mem_lastLine _
  obtain ⟨l, hl, hbad⟩ := h
  have hraised := drain_of_refuses (show 0 < readSize by decide)
    (takes_or_refuses py track_window) hno
    ⟨l, hl, refuses_of_not_readable track_window hbad⟩
    (Nat.lt_succ_self (b.drop f.pos).length) (0, s.data) []
  unfold TrackStore.drain
  rw [hfile, Option.getD_some]
  exact hraised

end

/-! ## A poll -/

/-- The complete lines of the files that were found by now. -/
def Seen.lines (v : Seen) : List Bytes := v.linesBelow (v.env.day + 1)

/-- A file is open: it is the last one that was found, and what is in front of the position has been
read.
-/
structure Reading (v : Seen) (s : TrackStore) (handed : List Bytes) (f : OpenFile) : Prop where
  file : s.file = some f
  day : f.day ≤ v.env.day
  found : v.found f.day = true
  last : ∀ d, f.day < d → v.found d = false
  read : ∃ b, v.env.files f.day = some b ∧ f.pos ≤ b.length ∧
    s.buf = lastLine lineFeed (b.take f.pos) ∧
    handed = v.linesBelow f.day ++ fullLines lineFeed (b.take f.pos)

/-- No file is open: that of the day was not found, and all that were have been read. -/
structure Resting (v : Seen) (s : TrackStore) (handed : List Bytes) : Prop where
  file : s.file = none
  buf : s.buf = []
  found : v.found v.env.day = false
  read : handed = v.lines

/-- What the tracker has handed out is what it should have. -/
structure Follows (py : Python) (v : Seen) (s : TrackStore) (handed : List Bytes) : Prop where
  place : Resting v s handed ∨ ∃ f, Reading v s handed f
  readable : ∀ l ∈ handed, Readable py l
  counted : s.count = handed.length

/-- A poll has gone well: what was handed out by then are the lines of the files that were found. -/
structure GoneWell (py : Python) (v : Seen) (handed : List Bytes) (p : Polled) : Prop where
  raised : p.raised = none
  lines : handed ++ p.handed = v.lines
  follows : Follows py v p.store (handed ++ p.handed)

/-- What becomes of a poll is decided by whether the lines of the files that were found can be read. -/
structure Decided (py : Python) (v : Seen) (handed : List Bytes) (p : Polled) : Prop where
  well : (∀ l ∈ v.lines, Readable py l) → GoneWell py v handed p
  raises : (∃ l ∈ v.lines, ¬Readable py l) → p.raised.isSome = true

section

variable {py : Python} {track_window : ℕ} {v : Seen} {s : TrackStore} {handed : List Bytes}

theorem Seen.lines_eq (v : Seen) : v.lines =
    v.linesBelow v.env.day ++ if v.found v.env.day then v.env.lines v.env.day else [] :=
  v.linesBelow_succ v.env.day

theorem linesBelow_poll (v : Seen) : (v.step .poll).linesBelow v.env.day =
    v.linesBelow v.env.day := by
  refine Seen.linesBelow_congr fun d hd => ?_
  have hfound : (v.step .poll).found d = v.found d := by
    change (v.found d || (decide (d = v.env.day) && _)) = _
    rw [decide_eq_false hd.ne, Bool.false_and, Bool.or_false]
  rw [hfound]
  rfl

/-- Where the file of the day is open, or has just been opened. -/
theorem decided_drain {f : OpenFile} {b : Bytes} (hday : f.day = v.env.day)
    (hfile : v.env.files v.env.day = some b) (hpos : f.pos ≤ b.length)
    (hbuf : s.buf = lastLine lineFeed (b.take f.pos))
    (hread : handed = v.linesBelow v.env.day ++ fullLines lineFeed (b.take f.pos))
    (hgood : ∀ l ∈ handed, Readable py l) (hcount : s.count = handed.length)
    (hvalid : v.Valid) :
    Decided py (v.step .poll) handed (s.drain py track_window v.env.files f) := by
  have hfile' : v.env.files f.day = some b := by rw [hday, hfile]
  have hfound : (v.step .poll).found v.env.day = true := by
    change (v.found v.env.day || (decide (v.env.day = v.env.day) && _)) = true
    rw [hfile, decide_eq_true rfl, Option.isSome_some, Bool.and_true, Bool.or_true]
  have hlines : (v.step .poll).lines = handed ++ fullLines lineFeed (s.buf ++ b.drop f.pos) := by
    rw [Seen.lines_eq]
    change (v.step .poll).linesBelow v.env.day ++
      (if (v.step .poll).found v.env.day then v.env.lines v.env.day else []) = _
    rw [linesBelow_poll, if_pos hfound, Env.lines_of_some hfile, lines_eq_of_buf hbuf, hread,
      List.append_assoc]
  constructor
  · intro h
    rw [hlines] at h
    obtain ⟨hraised, hhanded, hopen, hrest, hcounted⟩ := drain_of_readable
      track_window hfile' hpos hbuf fun l hl => h l (List.mem_append_right _ hl)
    refine ⟨hraised, by rw [hhanded, hlines], ⟨Or.inr ⟨⟨f.day, b.length⟩, ?_⟩, ?_, ?_⟩⟩
    · refine ⟨hopen, hday.le, by rw [hday]; exact hfound, fun d hd => ?_, b, hfile', le_rfl, ?_, ?_⟩
      · exact (hvalid.step .poll).not_found (lt_of_eq_of_lt hday.symm hd)
      · rw [List.take_length]
        exact hrest
      · rw [List.take_length, hhanded, ← hlines, Seen.lines_eq]
        change (v.step .poll).linesBelow v.env.day ++
          (if (v.step .poll).found v.env.day then v.env.lines v.env.day else []) = _
        rw [if_pos hfound, Env.lines_of_some hfile, hday]
    · rw [hhanded]
      exact h
    · rw [hcounted, hhanded, hcount, List.length_append]
  · rintro ⟨l, hl, hbad⟩
    rw [hlines] at hl
    exact drain_of_not_readable track_window hfile' hbuf
      ⟨l, (List.mem_append.1 hl).resolve_left fun hh => hbad (hgood l hh), hbad⟩

variable (track_window) in
theorem decided_pollToday (hvalid : v.Valid) (h : Follows py v s handed)
    (hday : ∀ f, s.file = some f → f.day = v.env.day) :
    Decided py (v.step .poll) handed
      (s.pollToday py track_window v.env.files v.env.day) := by
  rcases h.place with hrest | ⟨f, hread⟩
  · cases hfile : v.env.files v.env.day with
    | none =>
      -- there is no file of the day yet
      have hsame : (v.step .poll).found = v.found := by
        funext d
        change (v.found d || (decide (d = v.env.day) && (v.env.files d).isSome)) = v.found d
        rcases eq_or_ne d v.env.day with rfl | hd
        · rw [hfile, Option.isSome_none, Bool.and_false, Bool.or_false]
        · rw [decide_eq_false hd, Bool.false_and, Bool.or_false]
      have hv : v.step .poll = v := congrArg (Seen.mk v.env) hsame
      have hpoll : s.pollToday py track_window v.env.files v.env.day = { store := s } := by
        unfold TrackStore.pollToday
        rw [hrest.file, hfile]
        rfl
      rw [hv, hpoll]
      refine ⟨fun _ => ⟨rfl, ?_, ?_⟩, ?_⟩
      · rw [List.append_nil]
        exact hrest.read
      · rw [List.append_nil]
        exact h
      · rintro ⟨l, hl, hbad⟩
        rw [← hrest.read] at hl
        exact absurd (h.readable l hl) hbad
    | some b =>
      have hpoll : s.pollToday py track_window v.env.files v.env.day =
          s.drain py track_window v.env.files ⟨v.env.day, 0⟩ := by
        unfold TrackStore.pollToday
        rw [hrest.file, hfile]
        simp [hfile]
      have hread := hrest.read
      rw [Seen.lines_eq, hrest.found, if_neg Bool.false_ne_true] at hread
      rw [hpoll]
      refine decided_drain rfl hfile (Nat.zero_le _) ?_ ?_ h.readable h.counted hvalid
      · rw [List.take_zero, lastLine_of_not_mem List.not_mem_nil, hrest.buf]
      · rw [List.take_zero, fullLines_of_not_mem List.not_mem_nil]
        exact hread
  · obtain ⟨b, hfile, hpos, hbuf, hhanded⟩ := hread.read
    have hd := hday f hread.file
    rw [hd] at hfile hhanded
    have hpoll : s.pollToday py track_window v.env.files v.env.day =
        s.drain py track_window v.env.files f := by
      unfold TrackStore.pollToday
      rw [hread.file]
      simp [hd, hfile, hpos]
    rw [hpoll]
    exact decided_drain hd hfile hpos hbuf hhanded h.readable h.counted hvalid

theorem Reading.handed_eq {f : OpenFile} (h : Reading v s handed f) (hday : f.day < v.env.day) :
    ∃ b, v.env.files f.day = some b ∧ f.pos ≤ b.length ∧
      s.buf = lastLine lineFeed (b.take f.pos) ∧
      v.lines = handed ++ fullLines lineFeed (s.buf ++ b.drop f.pos) := by
  obtain ⟨b, hfile, hpos, hbuf, hhanded⟩ := h.read
  have hlast : v.lines = v.linesBelow (f.day + 1) :=
    Seen.linesBelow_of_not_found (by omega) fun d hd _ => h.last d hd
  refine ⟨b, hfile, hpos, hbuf, ?_⟩
  rw [hlast, Seen.linesBelow_succ, if_pos h.found, Env.lines_of_some hfile, lines_eq_of_buf hbuf,
    hhanded, List.append_assoc]

/-- A poll adds to the lines of the files that were found. -/
theorem mem_lines_poll {l : Bytes} (h : l ∈ v.lines) : l ∈ (v.step .poll).lines := by
  obtain ⟨d, hd, hfound, hl⟩ := Seen.mem_linesBelow.1 h
  refine Seen.mem_linesBelow.2 ⟨d, hd, ?_, hl⟩
  change (v.found d || _) = true
  rw [hfound, Bool.true_or]

variable (track_window) in
theorem decided_poll (hvalid : v.Valid) (h : Follows py v s handed) :
    Decided py (v.step .poll) handed (s.poll py track_window v.env.files v.env.day) := by
  rcases h.place with hrest | ⟨f, hread⟩
  · have hpoll : s.poll py track_window v.env.files v.env.day =
        s.pollToday py track_window v.env.files v.env.day := by
      unfold TrackStore.poll
      rw [hrest.file]
    rw [hpoll]
    refine decided_pollToday track_window hvalid h fun f hf => ?_
    rw [hrest.file] at hf
    exact absurd hf (by simp)
  · rcases eq_or_ne f.day v.env.day with hd | hd
    · have hpoll : s.poll py track_window v.env.files v.env.day =
          s.pollToday py track_window v.env.files v.env.day := by
        unfold TrackStore.poll
        rw [hread.file]
        exact if_pos hd
      rw [hpoll]
      refine decided_pollToday track_window hvalid h fun f' hf' => ?_
      rw [hread.file] at hf'
      rw [← Option.some.inj hf', hd]
    · -- the rest of the old file first, then from where no file is open
      have hlt : f.day < v.env.day := lt_of_le_of_ne hread.day hd
      obtain ⟨b, hfile, hpos, hbuf, hlines⟩ := hread.handed_eq hlt
      have hpoll : s.poll py track_window v.env.files v.env.day =
          (let d := s.drain py track_window v.env.files f
          if d.raised.isSome then d
          else
            let p := d.store.close.pollToday py track_window v.env.files v.env.day
            { p with n := d.n + p.n, handed := d.handed ++ p.handed }) := by
        unfold TrackStore.poll
        rw [hread.file]
        exact if_neg hd
      rw [hpoll]
      by_cases hold : ∀ l ∈ fullLines lineFeed (s.buf ++ b.drop f.pos), Readable py l
      · obtain ⟨hraised, hhanded, -, -, hcount⟩ :=
          drain_of_readable track_window hfile hpos hbuf hold
        generalize s.drain py track_window v.env.files f = d at hraised hhanded hcount
        have hfollows : Follows py v d.store.close v.lines := by
          refine ⟨Or.inl ⟨rfl, rfl, hread.last _ hlt, rfl⟩, fun l hl => ?_, ?_⟩
          · rw [hlines] at hl
            exact (List.mem_append.1 hl).elim (h.readable l) (hold l)
          · rw [hlines, List.length_append, ← h.counted, ← hcount]
            rfl
        have hdecided := decided_pollToday track_window hvalid hfollows
          fun f' hf' => absurd hf' (by simp [TrackStore.close])
        dsimp only
        rw [hraised]
        refine ⟨fun hall => ?_, hdecided.raises⟩
        obtain ⟨hp, hl, hf⟩ := hdecided.well hall
        rw [hlines, ← hhanded, List.append_assoc] at hl hf
        exact ⟨hp, hl, hf⟩
      · have hbad : ∃ l ∈ fullLines lineFeed (s.buf ++ b.drop f.pos), ¬Readable py l := by
          by_contra hno
          exact hold fun l hl => by_contra fun hl' => hno ⟨l, hl, hl'⟩
        have hraised := drain_of_not_readable track_window hfile hbuf hbad
        dsimp only
        rw [if_pos hraised]
        refine ⟨fun hall => ?_, fun _ => hraised⟩
        obtain ⟨l, hl, hno⟩ := hbad
        have hmem : l ∈ v.lines := by
          rw [hlines]
          exact List.mem_append_right _ hl
        exact absurd (hall l (mem_lines_poll hmem)) hno

/-! ## Appends and midnights -/

theorem Follows.midnight (hvalid : v.Valid) (h : Follows py v s handed) :
    Follows py (v.step .midnight) s handed := by
  refine ⟨?_, h.readable, h.counted⟩
  rcases h.place with hrest | ⟨f, hread⟩
  · have hnext : (v.step .midnight).found (v.step .midnight).env.day = false :=
      hvalid.not_found (Nat.lt_succ_self _)
    refine Or.inl ⟨hrest.file, hrest.buf, hnext, ?_⟩
    rw [Seen.lines_eq, hnext, if_neg Bool.false_ne_true, List.append_nil]
    exact hrest.read
  · exact Or.inr ⟨f, hread.file, hread.day.trans (Nat.le_succ _), hread.found, hread.last, hread.read⟩

theorem linesBelow_append (v : Seen) (bytes : Bytes) {n : ℕ} (hn : n ≤ v.env.day) :
    (v.step (.append bytes)).linesBelow n = v.linesBelow n := by
  refine Seen.linesBelow_congr fun d hd => ?_
  change (if v.found d then (v.env.step (.append bytes)).lines d else []) = _
  rw [Env.lines_append_of_ne (lt_of_lt_of_le hd hn).ne]

theorem Follows.append (h : Follows py v s handed) (bytes : Bytes) :
    Follows py (v.step (.append bytes)) s handed := by
  refine ⟨?_, h.readable, h.counted⟩
  rcases h.place with hrest | ⟨f, hread⟩
  · have hfound : (v.step (.append bytes)).found (v.step (.append bytes)).env.day = false :=
      hrest.found
    have hlines := hrest.read
    refine Or.inl ⟨hrest.file, hrest.buf, hfound, ?_⟩
    rw [Seen.lines_eq, hrest.found, if_neg Bool.false_ne_true, List.append_nil] at hlines
    rw [Seen.lines_eq, hfound, if_neg Bool.false_ne_true, List.append_nil]
    exact hlines.trans (linesBelow_append v bytes le_rfl).symm
  · obtain ⟨b, hfile, hpos, hbuf, hhanded⟩ := hread.read
    refine Or.inr ⟨f, hread.file, hread.day, hread.found, hread.last, ?_⟩
    rw [linesBelow_append v bytes hread.day]
    rcases eq_or_ne f.day v.env.day with hd | hd
    · -- what has been read of a file does not change when it grows
      have htake : (b ++ bytes).take f.pos = b.take f.pos := List.take_append_of_le_length hpos
      refine ⟨b ++ bytes, ?_, ?_, by rw [htake]; exact hbuf, by rw [htake]; exact hhanded⟩
      · change Function.update v.env.files v.env.day _ f.day = _
        rw [hd] at hfile ⊢
        rw [Function.update_self, hfile]
        rfl
      · rw [List.length_append]
        exact hpos.trans (Nat.le_add_right _ _)
    · refine ⟨b, ?_, hpos, hbuf, hhanded⟩
      change Function.update v.env.files v.env.day _ f.day = _
      rw [Function.update_of_ne hd]
      exact hfile

end

/-! ## Runs -/

section

variable (py : Python) (track_window : ℕ)

theorem env_run (es : List Event) : (run py track_window es).env = (seen es).env := by
  induction es using List.reverseRecOn with
  | nil => rfl
  | append_singleton es x ih =>
    rw [run_concat, seen_concat]
    cases x with
    | poll =>
      change ((run py track_window es).poll py track_window).env = (seen es).env
      rw [← ih, Daemon.poll]
      split_ifs
      · rfl
      · rfl
    | append bytes => exact congrArg (fun e => Env.step e (.append bytes)) ih
    | midnight => exact congrArg (fun e => Env.step e .midnight) ih

theorem run_poll {es : List Event} (h : (run py track_window es).raised = none) :
    run py track_window (es ++ [.poll]) =
      (let p := (run py track_window es).store.poll py track_window (seen es).env.files (seen es).env.day
      { env := (seen es).env, store := p.store, handed := (run py track_window es).handed ++ p.handed,
        raised := p.raised }) := by
  rw [run_concat]
  change (run py track_window es).poll py track_window = _
  rw [Daemon.poll, h, env_run]
  rfl

theorem not_raised_before {es : List Event} {x : Event}
    (h : (run py track_window (es ++ [x])).raised = none) :
    (run py track_window es).raised = none := by
  by_contra hraised
  refine hraised ?_
  rw [run_concat] at h
  cases x with
  | poll =>
    have hsome := Option.isSome_iff_ne_none.2 hraised
    change ((run py track_window es).poll py track_window).raised = none at h
    rw [Daemon.poll, if_pos hsome] at h
    exact h
  | append bytes => exact h
  | midnight => exact h

theorem well_of_poll {es : List Event}
    (hfollows : Follows py (seen es) (run py track_window es).store (run py track_window es).handed)
    (h : (run py track_window (es ++ [.poll])).raised = none) :
    GoneWell py (seen (es ++ [.poll])) (run py track_window es).handed
      ((run py track_window es).store.poll py track_window (seen es).env.files (seen es).env.day) := by
  have hdecided := decided_poll track_window (valid_seen es) hfollows
  rw [run_poll py track_window (not_raised_before py track_window h)] at h
  rw [seen_concat]
  refine hdecided.well fun l hl => ?_
  by_contra hbad
  have hraised := hdecided.raises ⟨l, hl, hbad⟩
  rw [show ((run py track_window es).store.poll py track_window (seen es).env.files
    (seen es).env.day).raised = none from h] at hraised
  exact absurd hraised Bool.false_ne_true

/-- As long as nothing was raised, the tracker follows the files. -/
theorem follows_run (es : List Event) (h : (run py track_window es).raised = none) :
    Follows py (seen es) (run py track_window es).store (run py track_window es).handed := by
  induction es using List.reverseRecOn with
  | nil => exact ⟨Or.inl ⟨rfl, rfl, rfl, rfl⟩, fun l hl => absurd hl List.not_mem_nil, rfl⟩
  | append_singleton es x ih =>
    have hbefore := not_raised_before py track_window h
    have hfollows := ih hbefore
    cases x with
    | poll =>
      have hwell := well_of_poll py track_window hfollows h
      rw [run_poll py track_window hbefore]
      exact hwell.follows
    | append bytes =>
      rw [run_concat, seen_concat]
      exact hfollows.append bytes
    | midnight =>
      rw [run_concat, seen_concat]
      exact hfollows.midnight (valid_seen es)

/-- What has been handed out after a poll are the lines of the files that were found. -/
theorem handed_of_poll {es : List Event} (h : (run py track_window (es ++ [.poll])).raised = none) :
    (run py track_window (es ++ [.poll])).handed = (seen (es ++ [.poll])).lines := by
  have hbefore := not_raised_before py track_window h
  have hwell := well_of_poll py track_window (follows_run py track_window es hbefore) h
  rw [run_poll py track_window hbefore]
  exact hwell.lines

/-- A poll raises just if one of these lines cannot be read. -/
theorem raised_poll_iff {es : List Event} (h : (run py track_window es).raised = none) :
    (run py track_window (es ++ [.poll])).raised = none ↔
      ∀ l ∈ (seen (es ++ [.poll])).lines, Readable py l := by
  have hdecided := decided_poll track_window (valid_seen es)
    (follows_run py track_window es h)
  constructor
  · intro hnone l hl
    rw [← handed_of_poll py track_window hnone] at hl
    exact (follows_run py track_window _ hnone).readable l hl
  · intro hall
    rw [seen_concat] at hall
    rw [run_poll py track_window h]
    exact (hdecided.well hall).raised

/-- If the lines can be read at every poll, nothing is raised. -/
theorem not_raised {es : List Event}
    (h : ∀ p, p ++ [.poll] <+: es → ∀ l ∈ (seen (p ++ [.poll])).lines, Readable py l) :
    (run py track_window es).raised = none := by
  induction es using List.reverseRecOn with
  | nil => rfl
  | append_singleton es x ih =>
    have hbefore := ih fun p hp => h p (hp.trans (List.prefix_append es [x]))
    cases x with
    | poll => exact (raised_poll_iff py track_window hbefore).2 (h es List.prefix_rfl)
    | append bytes =>
      rw [run_concat]
      exact hbefore
    | midnight =>
      rw [run_concat]
      exact hbefore

/-- The lines of the files that were found are all lines just if no file with a line was missed. -/
theorem Seen.lines_eq_allLines_iff {v : Seen} (hvalid : v.Valid) :
    v.lines = v.env.allLines ↔ ∀ d, v.env.lines d ≠ [] → v.found d = true := by
  unfold Seen.lines Env.allLines
  rw [Seen.linesBelow_eq_iff]
  constructor
  · intro h d hne
    refine h d (Nat.lt_succ_of_le (Nat.le_of_not_lt fun hd => ?_)) hne
    exact hne (Env.lines_of_none (hvalid.none_after d hd))
  · exact fun h d _ => h d

/-- The tracker has read every line of the files once and in order by every poll, and nothing was
raised, if and only if at every poll all lines of the files can be read and every file with a line was
found by a poll on its day.
-/
theorem faithful_polls_iff (es : List Event) :
    (∀ p, p ++ [.poll] <+: es → (run py track_window (p ++ [.poll])).Faithful) ↔
      ∀ p, p ++ [.poll] <+: es → (seen (p ++ [.poll])).Kept py := by
  constructor
  · intro h p hp
    obtain ⟨hraised, hhanded, -⟩ := h p hp
    have hlines := handed_of_poll py track_window hraised
    have hreadable :=
      (raised_poll_iff py track_window (not_raised_before py track_window hraised)).1 hraised
    rw [env_run] at hhanded
    rw [hlines] at hhanded
    have hfound := (Seen.lines_eq_allLines_iff (valid_seen _)).1 hhanded
    refine ⟨fun d l hl => hreadable l ?_, hfound⟩
    rw [hhanded]
    have hd : d < (seen (p ++ [.poll])).env.day + 1 := by
      by_contra hd
      have hnone := (valid_seen (p ++ [.poll])).none_after d (by omega)
      rw [Env.lines_of_none hnone] at hl
      exact absurd hl List.not_mem_nil
    exact List.mem_flatMap.2 ⟨d, List.mem_range.2 hd, hl⟩
  · intro h p hp
    have hkept := fun r hr => h r (List.IsPrefix.trans hr hp)
    have hraised : (run py track_window (p ++ [.poll])).raised = none :=
      not_raised py track_window fun r hr l hl => by
        obtain ⟨d, -, -, hl⟩ := Seen.mem_linesBelow.1 hl
        exact (hkept r hr).readable d l hl
    have hlines := handed_of_poll py track_window hraised
    rw [(Seen.lines_eq_allLines_iff (valid_seen _)).2 (h p hp).found] at hlines
    refine ⟨hraised, by rw [hlines, env_run], ?_⟩
    have hcounted := (follows_run py track_window _ hraised).counted
    rw [hlines] at hcounted
    rw [env_run]
    exact hcounted

end

/-! ## Runs that are not followed -/

/-- The standard library on the texts of the three constants. -/
def constants : Python where
  loads raw :=
    if raw = ascii "null" then some .null
    else if raw = ascii "true" then some (.bool true)
    else if raw = ascii "false" then some (.bool false)
    else none
  int _ := none
  float _ := none
  str _ := []

/-- A line `null` is valid and ends the daemon. -/
theorem not_faithful_null : ¬∀ p, p ++ [.poll] <+: [.append (ascii "null\n"), .poll] →
    (run constants 32 (p ++ [.poll])).Faithful := by
  intro h
  have hraised := (h [.append (ascii "null\n")] List.prefix_rfl).raised
  exact absurd hraised (by decide)

/-- A line that was written before midnight, in a file that no poll has found by then, is not read. -/
example : ¬∀ p, p ++ [.poll] <+: [.append (ascii "\n"), .midnight, .poll] →
      (run constants 32 (p ++ [.poll])).Faithful := by
  intro h
  have hhanded := (h [.append (ascii "\n"), .midnight] List.prefix_rfl).handed
  exact absurd hhanded (by decide)

end Bewe.AisGuard
