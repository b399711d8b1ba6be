import Bewe.HostMission.Delete

/-!
# Missions begin and end

`mission_start`, `mission_end`, `mission_rollover_utc0` and `mission_delete` of `mission.cpp`. The end of
a mission takes the lock twice, and between the two the recorders are stopped; the rollover looks first
whether there is a mission, then ends it and starts another, and a deletion looks twice, and takes the
lock for each. So commands of operators and the rollover may come between one another's halves.

In between the state is CLOSING, in which no mission starts and none is ended, so one thread at most is
between the halves, and every mission that was started comes into the history once, in order, with the
time at which its end was asked for, unless it is deleted (`history_of_reachable`).
-/

namespace Bewe.HostMission

open Lib

/-! ## Halves -/

/-- What `mission_start` finds out by itself; `fallback` is who starts a mission if nobody is named. -/
structure Capture where
  fallback : Str 32
  station_name : Str 64
  host_name : Str 32
  lat : Single
  lon : Single
  sdr_kind : Str 24
  antenna : Str 64

/-- `make_code` -/
def makeCode (tm : Tm) : Bytes := UInt8.ofNat (65 + tm.tm_mon.toNat) :: padInt 2 tm.tm_mday

section

-- `KST::to_tm`
variable (toTm : Int64 → Tm)

/-- The fields of a mission that starts. -/
def startEntry (c : Capture) (now : Int64) (started_by : Str 32) (op_index : UInt8) : MissionEntry where
  year := Int32.ofInt (1900 + (toTm now).tm_year)
  code := .copy 8 code_room (makeCode (toTm now))
  start_utc := now
  started_by := if started_by.bytes = [] then c.fallback else started_by
  op_index := op_index
  station_name := c.station_name
  host_name := c.host_name
  lat := c.lat
  lon := c.lon
  sdr_kind := c.sdr_kind
  antenna := c.antenna

/-- `mission_start`, for the fields of the mission. -/
def Host.start (e : MissionEntry) (h : Host) : Bool × Host :=
  if h.mission_state ≠ .idle then (false, h)
  else (true, { h with mission_state := .active, mission := e })

/-- The first half of `mission_end`. -/
def Host.endBegin (now : Int64) (h : Host) : Bool × Host :=
  if h.mission_state ≠ .active then (false, h)
  else (true, { h with mission_state := .closing, mission := { h.mission with end_utc := now } })

/-- The second half. -/
def Host.endFinish (h : Host) : Host :=
  { h with
    mission_state := .idle
    mission := {}
    mission_history := h.mission_history ++ [{ h.mission with rollover := 0 }] }

/-! ## Threads -/

/-- What a function does after `mission_end`. -/
inductive Rest
  | nothing
  | start (started_by : Str 32) (op_index : UInt8)
  | erase (year : Int32) (code : CString)

/-- What a thread still has to do: to look for the active mission of a deletion, either half of an end,
and the rest. -/
inductive Task
  | look (year : Int32) (code : CString)
  | begin (rest : Rest)
  | finish (rest : Rest)
  | rest (rest : Rest)

/-- Whether a thread is between the halves of an end. -/
def Task.closes : Task → Bool
  | .finish _ => true
  | .look _ _ | .begin _ | .rest _ => false

/-- HOST with its threads, and what has succeeded so far: the missions that were started, the times at
which ends were asked for, and the years and codes that were erased. -/
structure Running where
  host : Host
  tasks : List Task := []
  starts : List MissionEntry := []
  ends : List Int64 := []
  erased : List (Int32 × CString) := []

namespace Running

/-- A start, with the tasks that there are then. -/
def start (s : Running) (e : MissionEntry) (tasks : List Task) : Running :=
  { s with
    host := (s.host.start e).2
    tasks := tasks
    starts := if (s.host.start e).1 then s.starts ++ [e] else s.starts }

/-- The first half of an end; a thread that cannot end the mission goes on with the rest. -/
def endBegin (s : Running) (now : Int64) (rest : Rest) (tasks : List Task) : Running :=
  { s with
    host := (s.host.endBegin now).2
    tasks := tasks ++ [if (s.host.endBegin now).1 then .finish rest else .rest rest]
    ends := if (s.host.endBegin now).1 then s.ends ++ [now] else s.ends }

/-- Missions are erased, with the tasks that there are then. -/
def erase (s : Running) (year : Int32) (code : CString) (tasks : List Task) : Running :=
  { s with host := s.host.erase year code, tasks := tasks, erased := s.erased ++ [(year, code)] }

end Running

/-- A step of a thread. `saveMetaToDisk`, and in a deletion `rmRfDir`, is what it does without the
lock. -/
inductive Step (recordings : List Bytes) : Running → Running → Prop
  | start {s} (c now who op) : Step recordings s (s.start (startEntry toTm c now who op) s.tasks)
  | «end» {s} : Step recordings s { s with tasks := s.tasks ++ [.begin .nothing] }
  | rollover {s} : s.host.mission_state = .active → Step recordings s { s with
      tasks := s.tasks ++ [.begin (.start s.host.mission.started_by s.host.mission.op_index)] }
  | delete {s year code} : accepted year code → Step recordings s
      (if s.host.mission_state = .active ∧ s.host.mission.year = year ∧
          s.host.mission.code.bytes = code.bytes
        then { s with tasks := s.tasks ++ [.look year code] }
        else s.erase year code (s.tasks ++ [.look year code]))
  | look {s a b year code} : s.tasks = a ++ .look year code :: b → Step recordings s { s with
      tasks := a ++ b ++
        if s.host.mission_state = .active ∧ s.host.mission.year = year ∧
          strncmp8 s.host.mission.code.bytes code.bytes then [.begin (.erase year code)] else [] }
  | begin {s a b rest} (now) : s.tasks = a ++ .begin rest :: b →
      Step recordings s (s.endBegin now rest (a ++ b))
  | finish {s a b rest} : s.tasks = a ++ .finish rest :: b →
      Step recordings s { s with host := s.host.endFinish, tasks := a ++ b ++ [.rest rest] }
  | restart {s a b who op} (c now) : s.tasks = a ++ .rest (.start who op) :: b →
      Step recordings s (s.start (startEntry toTm c now who op) (a ++ b))
  | erase {s a b year code} : s.tasks = a ++ .rest (.erase year code) :: b →
      Step recordings s (s.erase year code (a ++ b))
  | save {s} : Step recordings s { s with host := saveMetaToDisk toTm recordings s.host }
  | remove {s} (dir) : Step recordings s { s with
      host.disk := rmRfDir (s.host.disk.height + 1) s.host.disk dir }

end

/-! ## The history -/

/-- A mission as it comes into the history. -/
def ended (e : MissionEntry) (now : Int64) : MissionEntry := { e with end_utc := now, rollover := 0 }

/-- Whether a mission was never erased. -/
def kept (erased : List (Int32 × CString)) (e : MissionEntry) : Bool :=
  erased.all fun d => !isMission d.1 d.2 e

/-- What is left of a list of missions after some were erased. -/
structure Remains (erased : List (Int32 × CString)) (l all : List MissionEntry) : Prop where
  sublist : l.Sublist all
  kept : l.filter (kept erased) = all.filter (kept erased)

/-- The history, with the mission that is being closed. -/
def Host.past (h : Host) : List MissionEntry :=
  h.mission_history ++ if h.mission_state = .closing then [{ h.mission with rollover := 0 }] else []

/-- What holds of all threads together: one is between the halves if and only if the state is CLOSING,
and the history, with the mission that is being closed, is what is left of the old one and of all that
was started and ended. -/
structure Consistent (old : List MissionEntry) (s : Running) : Prop where
  owed : s.tasks.countP Task.closes = if s.host.mission_state = .closing then 1 else 0
  length : s.starts.length = s.ends.length + if s.host.mission_state = .active then 1 else 0
  last : s.host.mission_state = .active → s.starts.getLast? = some s.host.mission
  history : Remains s.erased s.host.past (old ++ List.zipWith ended s.starts s.ends)

theorem zipWith_concat_of_length {α β γ : Type*} (f : α → β → γ) {l : List α} {r : List β}
    (h : l.length = r.length) (x : α) : List.zipWith f (l ++ [x]) r = List.zipWith f l r := by
  rw [← List.append_nil r, List.zipWith_append h, List.append_nil]
  simp

theorem Remains.append {erased : List (Int32 × CString)} {l all : List MissionEntry}
    (h : Remains erased l all) (m : List MissionEntry) : Remains erased (l ++ m) (all ++ m) where
  sublist := h.sublist.append (List.Sublist.refl m)
  kept := by rw [List.filter_append, List.filter_append, h.kept]

theorem Remains.erase {erased : List (Int32 × CString)} {l m all : List MissionEntry}
    (h : Remains erased (l ++ m) all) (year : Int32) (code : CString) :
    Remains (erased ++ [(year, code)]) (l.filter (fun e => !isMission year code e) ++ m) all where
  sublist := (List.filter_sublist.append (List.Sublist.refl m)).trans h.sublist
  kept := by
    have hkept : ∀ e, HostMission.kept (erased ++ [(year, code)]) e =
        (HostMission.kept erased e && !isMission year code e) := by
      intro e
      unfold HostMission.kept
      rw [List.all_append, List.all_cons, List.all_nil, Bool.and_true]
    have hfilter : ∀ r : List MissionEntry, r.filter (HostMission.kept (erased ++ [(year, code)])) =
        (r.filter (HostMission.kept erased)).filter fun e => !isMission year code e := by
      intro r
      rw [List.filter_filter]
      exact List.filter_congr fun e _ => (hkept e).trans (Bool.and_comm _ _)
    have hstill : (l.filter fun e => !isMission year code e).filter
        (HostMission.kept (erased ++ [(year, code)])) =
        l.filter (HostMission.kept (erased ++ [(year, code)])) := by
      rw [List.filter_filter]
      refine List.filter_congr fun e _ => ?_
      rw [hkept]
      cases isMission year code e <;> simp
    rw [List.filter_append, hstill, ← List.filter_append, hfilter, hfilter, h.kept]

namespace Consistent

variable {old : List MissionEntry} {s : Running}

/-- Tasks may change as long as the same number of threads is between the halves. -/
theorem tasks (h : Consistent old s) {tasks : List Task}
    (htasks : tasks.countP Task.closes = s.tasks.countP Task.closes) :
    Consistent old { s with tasks := tasks } := ⟨htasks.trans h.owed, h.length, h.last, h.history⟩

theorem start (h : Consistent old s) (e : MissionEntry) {tasks : List Task}
    (htasks : tasks.countP Task.closes = s.tasks.countP Task.closes) :
    Consistent old (s.start e tasks) := by
  obtain ⟨owed, length, last, history⟩ := h
  rw [← htasks] at owed
  unfold Running.start Host.start
  by_cases hidle : s.host.mission_state = .idle
  · rw [hidle] at owed length
    rw [if_neg (not_not.2 hidle)]
    have hlen : s.starts.length = s.ends.length := length
    refine ⟨owed, ?_, fun _ => by simp, ?_⟩
    · simp [hlen]
    · have hzip := zipWith_concat_of_length ended hlen e
      simp only [if_true] at hzip ⊢
      rw [hzip]
      unfold Host.past at history ⊢
      rwa [hidle] at history
  · rw [if_pos hidle]
    exact ⟨owed, length, last, history⟩

theorem endBegin (h : Consistent old s) (now : Int64) (rest : Rest) {tasks : List Task}
    (htasks : tasks.countP Task.closes = s.tasks.countP Task.closes) :
    Consistent old (s.endBegin now rest tasks) := by
  obtain ⟨owed, length, last, history⟩ := h
  rw [← htasks] at owed
  unfold Running.endBegin Host.endBegin
  by_cases hactive : s.host.mission_state = .active
  · unfold Host.past at history
    rw [hactive] at owed length history
    rw [if_neg (not_not.2 hactive)]
    obtain ⟨l, hl⟩ := List.getLast?_eq_some_iff.1 (last hactive)
    have hlen : l.length = s.ends.length := by
      rw [hl, List.length_append] at length
      exact Nat.succ.inj length
    have hpast := history.append [ended s.host.mission now]
    rw [if_neg MissionState.noConfusion, List.append_nil, hl, zipWith_concat_of_length ended hlen,
      List.append_assoc] at hpast
    refine ⟨?_, ?_, by simp, ?_⟩
    · rw [List.countP_append, owed]
      rfl
    · simp [hl, hlen]
    · simp only [if_true]
      rw [hl, List.zipWith_append hlen]
      exact hpast
  · rw [if_pos hactive]
    refine ⟨?_, length, last, history⟩
    rw [List.countP_append]
    exact owed

theorem endFinish (h : Consistent old s) {tasks : List Task}
    (htasks : tasks.countP Task.closes + 1 = s.tasks.countP Task.closes) :
    Consistent old { s with host := s.host.endFinish, tasks := tasks } := by
  obtain ⟨owed, length, last, history⟩ := h
  have hclosing : s.host.mission_state = .closing := by
    by_contra hne
    rw [if_neg hne] at owed
    omega
  unfold Host.past at history
  rw [hclosing] at owed length history
  refine ⟨?_, length, by simp [Host.endFinish], ?_⟩
  · have hzero : tasks.countP Task.closes = 0 := Nat.succ.inj (htasks.trans owed)
    exact hzero
  · unfold Host.past Host.endFinish
    rw [if_neg MissionState.noConfusion, List.append_nil]
    exact history

theorem erase (h : Consistent old s) (year : Int32) (code : CString) {tasks : List Task}
    (htasks : tasks.countP Task.closes = s.tasks.countP Task.closes) :
    Consistent old (s.erase year code tasks) :=
  ⟨htasks.trans h.owed, h.length, h.last, h.history.erase year code⟩

theorem step {toTm : Int64 → Tm} {recordings : List Bytes} {s' : Running} (h : Consistent old s)
    (hstep : Step toTm recordings s s') : Consistent old s' := by
  have hcons : ∀ {a b : List Task} {t : Task}, s.tasks = a ++ t :: b → t.closes = false →
      (a ++ b).countP Task.closes = s.tasks.countP Task.closes := by
    intro a b t htasks ht
    rw [htasks, List.countP_append, List.countP_append, List.countP_cons, ht]
    rfl
  have hconcat : ∀ {a : List Task} (t : Task), t.closes = false →
      (a ++ [t]).countP Task.closes = a.countP Task.closes := by
    intro a t ht
    rw [List.countP_append, List.countP_singleton, ht]
    rfl
  cases hstep with
  | start c now who op => exact h.start _ rfl
  | «end» => exact h.tasks (hconcat _ rfl)
  | rollover _ => exact h.tasks (hconcat _ rfl)
  | delete _ =>
    split_ifs
    · exact h.tasks (hconcat _ rfl)
    · exact h.erase _ _ (hconcat _ rfl)
  | look htasks =>
    split_ifs
    · exact h.tasks ((hconcat _ rfl).trans (hcons htasks rfl))
    · exact h.tasks ((congrArg _ (List.append_nil _)).trans (hcons htasks rfl))
  | begin now htasks => exact h.endBegin now _ (hcons htasks rfl)
  | finish htasks =>
    refine h.endFinish ?_
    rw [hconcat _ rfl, htasks, List.countP_append, List.countP_append, List.countP_cons]
    rfl
  | restart c now htasks => exact h.start _ (hcons htasks rfl)
  | erase htasks => exact h.erase _ _ (hcons htasks rfl)
  | save =>
    have hsame : (saveMetaToDisk toTm recordings s.host).mission_state = s.host.mission_state ∧
        (saveMetaToDisk toTm recordings s.host).mission = s.host.mission ∧
        (saveMetaToDisk toTm recordings s.host).past = s.host.past := by
      unfold saveMetaToDisk
      split_ifs <;> exact ⟨rfl, rfl, rfl⟩
    obtain ⟨hstate, hmission, hpast⟩ := hsame
    exact ⟨hstate ▸ h.owed, hstate ▸ h.length, hstate ▸ hmission ▸ h.last, hpast ▸ h.history⟩
  | remove dir => exact ⟨h.owed, h.length, h.last, h.history⟩

end Consistent

/-- **No mission is lost, and none is there twice:** however the threads come between one another, the
history, with the mission that is being closed, is a part of the history at the beginning and then of
the missions that were started, in order, each with the time at which its end was asked for. Of the
missions whose year and code were never erased all are there, and all were ended but the one that is
active. -/
theorem history_of_reachable {toTm : Int64 → Tm} {recordings : List Bytes} {h : Host} {s : Running}
    (hopen : h.mission_state ≠ .closing)
    (hrun : Relation.ReflTransGen (Step toTm recordings) { host := h, starts := h.active.toList } s) :
    let all := h.mission_history ++ List.zipWith ended s.starts s.ends
    s.host.past.Sublist all ∧ s.host.past.filter (kept s.erased) = all.filter (kept s.erased) ∧
      s.starts.length = s.ends.length + (if s.host.mission_state = .active then 1 else 0) ∧
      (s.host.mission_state = .active → s.starts.getLast? = some s.host.mission) := by
  have hconsistent : Consistent h.mission_history s := by
    induction hrun with
    | refl =>
      refine ⟨(if_neg hopen).symm, ?_, ?_, ?_⟩
      · unfold Host.active
        split_ifs <;> rfl
      · intro hactive
        have hmission : h.active = some h.mission := if_pos hactive
        dsimp only
        rw [hmission]
        rfl
      · have hpast : h.past = h.mission_history := by
          unfold Host.past
          rw [if_neg hopen, List.append_nil]
        rw [hpast, List.zipWith_nil_right, List.append_nil]
        exact ⟨List.Sublist.refl _, rfl⟩
    | tail _ hstep ih => exact ih.step hstep
  exact ⟨hconsistent.history.sublist, hconsistent.history.kept, hconsistent.length, hconsistent.last⟩

/-- A rollover ends a mission; an operator's start comes between the halves and is refused, and the
rollover starts the next mission. -/
theorem history_of_reachable_rollover :
    let toTm : Int64 → Tm := fun _ => ⟨126, 6, 26, 0, 0, 0⟩
    let c : Capture := ⟨.empty 32 name_room, .empty 64 station_room, .empty 32 name_room, .zero, .zero,
      .empty 24 kind_room, .empty 64 station_room⟩
    let who : Str 32 := .empty 32 name_room
    let active := Running.start { host := ⟨.idle, {}, [], .empty⟩ } (startEntry toTm c 0 who 1) []
    let rest : Rest := .start active.host.mission.started_by active.host.mission.op_index
    let closing := { active with tasks := [.begin rest] }.endBegin 5 rest []
    let refused := closing.start (startEntry toTm c 5 who 2) closing.tasks
    let idle := { refused with host := refused.host.endFinish, tasks := [.rest rest] }
    let again := idle.start (startEntry toTm c 6 active.host.mission.started_by
      active.host.mission.op_index) []
    let all := [] ++ List.zipWith ended again.starts again.ends
    again.host.past.Sublist all ∧
      again.host.past.filter (kept again.erased) = all.filter (kept again.erased) ∧
      again.starts.length =
        again.ends.length + (if again.host.mission_state = .active then 1 else 0) ∧
      (again.host.mission_state = .active → again.starts.getLast? = some again.host.mission) := by
  intro toTm c who active rest closing refused idle again
  have hactive := Relation.ReflTransGen.refl.tail
    (@Step.start toTm [] { host := ⟨.idle, {}, [], .empty⟩ } c 0 who 1)
  have hclosing := (hactive.tail (.rollover rfl)).tail (.begin (a := []) (b := []) 5 rfl)
  have hidle := (hclosing.tail (.start c 5 who 2)).tail (.finish (a := []) (b := []) rfl)
  have hagain := hidle.tail (.restart (a := []) (b := []) c 6 rfl)
  exact history_of_reachable (h := ⟨.idle, {}, [], .empty⟩) MissionState.noConfusion hagain

end Bewe.HostMission
