import Bewe.Lib.Find
import Bewe.Lib.Lines
import Bewe.Lib.Run
import Bewe.Sched.Machine

/-!
# Today's count of decodes

`host_today_count_cached` of `src/module_registry.cpp` counts the lines of today's file of a module
for each channel. It keeps the counts and the offset up to which the file was read, and reads only
what was appended since. A last line without its line feed waits for the next time.

`count_of_run` says that the counts are those of all complete lines, in every run in which the bytes
that were counted are still where they were whenever the file is read, or the file has become
shorter than the offset. Without truncations that is so (`noticed_of_appends`). A file that is
truncated and has grown up to the offset again is taken for the old one (`ne_count_of_regrown`).
-/

namespace Bewe.ModulePipe.TodayCount

open Lib
open Sched (atoi)

/-! ## Reading lines -/

/-- `MAX_CHANNELS`. -/
def MAX_CHANNELS : ℕ := 50

/-- `\n`. -/
def newline : UInt8 := 10

/-- `sizeof(line) - 1`: `fgets` keeps an entry for the zero. -/
def lineRoom : ℕ := 1023

/-- The channel that a line carries, if it is one. -/
def channelOf (line : Bytes) : Option (Fin MAX_CHANNELS) :=
  (findAfter (ascii "\"ch\":") (cStr line)).bind fun p =>
    let c := atoi p
    if h : 0 ≤ c ∧ c < MAX_CHANNELS then some ⟨c.toNat, by omega⟩ else none

/-- `e.cnt[c]++` for the channel of a line. -/
def countLine (cnt : Fin MAX_CHANNELS → ℕ) (line : Bytes) : Fin MAX_CHANNELS → ℕ :=
  match channelOf line with
  | some c => Function.update cnt c (cnt c + 1)
  | none => cnt

/-- `fgets` came to the end of the file before the line or the buffer ended. -/
def atEnd (line : Bytes) : Bool := line.length < lineRoom && line.getLast? ≠ some newline

/-- The loop over the lines from the offset on. -/
def readLines (s : Bytes) (off : ℕ) (cnt : Fin MAX_CHANNELS → ℕ) : ℕ × (Fin MAX_CHANNELS → ℕ) :=
  if s = [] then (off, cnt)
  else
    let line := takeLine newline lineRoom s
    -- a last line that is not complete: the offset stays before it
    if cStr line ≠ [] ∧ (cStr line).getLast? ≠ some newline ∧ atEnd line then (off, cnt)
    else readLines (s.drop line.length) (off + line.length) (countLine cnt line)
termination_by s.length
decreasing_by
  rename_i hs _
  have hline := List.length_pos_of_ne_nil (takeLine_ne_nil (q := newline) hs 1022)
  have hlen := List.length_pos_of_ne_nil hs
  rw [List.length_drop]
  exact Nat.sub_lt hlen hline

/-! ## The cache -/

/-- The eight characters of a date. -/
abbrev Day := Vector UInt8 8

/-- `Ent`. A cache entry that was never used has no date. -/
structure Ent where
  t : ℤ
  date : Option Day
  off : ℕ
  cnt : Fin MAX_CHANNELS → ℕ

/-- An entry that was never used. -/
def Ent.fresh : Ent := ⟨0, none, 0, 0⟩

/-- Whether a poll reads the file. -/
def Ent.reads (e : Ent) (now : ℤ) (force : Bool) : Bool :=
  force || 3000 ≤ now - e.t || e.t = 0

/-- What a poll that reads does, where there may be no file. -/
def Ent.read (e : Ent) (now : ℤ) (d : Day) (file : Option Bytes) : Ent :=
  let e := { e with t := now }
  let e := if e.date ≠ some d then { e with date := some d, off := 0, cnt := 0 } else e
  match file with
  | none => { e with off := 0, cnt := 0 }
  | some bs =>
    let e := if bs.length < e.off then { e with off := 0, cnt := 0 } else e
    let r := readLines (bs.drop e.off) e.off e.cnt
    { e with off := r.1, cnt := r.2 }

/-- `path`, in a home directory. -/
def todayPath (base id : Bytes) (d : Day) : Bytes :=
  base ++ ascii "/BEWE/modules/" ++ id ++ ascii "/" ++ id ++ ascii "_" ++ d.toList ++
    ascii ".jsonl"

/-- The files, the date, the entries of `cache`, and of which bytes a module's counts are. The last
is no part of the program. -/
structure World where
  files : Bytes → Option Bytes
  today : Day
  cache : Bytes → Ent
  seen : Bytes → Bytes

/-- `host_today_count_cached`: the entry of the module after the call, and what is returned. -/
def hostTodayCount (base : Bytes) (w : World) (id : Bytes) (ch now : ℤ) (force : Bool) : Ent × ℕ :=
  let e := w.cache id
  if h : 0 ≤ ch ∧ ch < MAX_CHANNELS then
    let e := if e.reads now force then e.read now w.today (w.files (todayPath base id w.today))
      else e
    (e, e.cnt ⟨ch.toNat, by omega⟩)
  else (e, 0)

/-- What can happen. -/
inductive Event
  /-- Bytes are appended to a file. -/
  | append (path bs : Bytes)
  /-- A file is truncated to zero. -/
  | truncate (path : Bytes)
  /-- Another day begins. -/
  | day (d : Day)
  /-- `host_today_count_cached` is called at a time. -/
  | poll (id : Bytes) (ch now : ℤ) (force : Bool)

/-- The call looks at the file. -/
def World.reads (w : World) (id : Bytes) (ch now : ℤ) (force : Bool) : Prop :=
  (0 ≤ ch ∧ ch < MAX_CHANNELS) ∧ (w.cache id).reads now force = true

instance (w : World) (id : Bytes) (ch now : ℤ) (force : Bool) :
    Decidable (w.reads id ch now force) := inferInstanceAs (Decidable (_ ∧ _))

/-- What an event does. -/
def World.step (base : Bytes) (w : World) : Event → World
  | .append path bs =>
    { w with files := Function.update w.files path (some ((w.files path).getD [] ++ bs)) }
  | .truncate path => { w with files := Function.update w.files path (some []) }
  | .day d => { w with today := d }
  | .poll id ch now force =>
    let e := (hostTodayCount base w id ch now force).1
    { w with
      cache := Function.update w.cache id e
      seen := if w.reads id ch now force then
          Function.update w.seen id
            (((w.files (todayPath base id w.today)).getD []).take e.off)
        else w.seen }

/-! ## What it is for -/

/-- A file of lines that fit the buffer. -/
def IsText (bs : Bytes) : Prop := 0 ∉ bs ∧ ShortLines newline lineRoom bs

instance (bs : Bytes) : Decidable (IsText bs) := inferInstanceAs (Decidable (_ ∧ _))

/-- The number of lines that carry a channel. -/
def carried (ls : List Bytes) (c : Fin MAX_CHANNELS) : ℕ := ls.countP fun l => channelOf l = some c

/-- The number of complete lines of today's file that carry a channel. -/
def World.count (base : Bytes) (w : World) (id : Bytes) (c : Fin MAX_CHANNELS) : ℕ :=
  carried (linesOf newline ((w.files (todayPath base id w.today)).getD [])).1 c

theorem countLine_eq (cnt : Fin MAX_CHANNELS → ℕ) (line : Bytes) (c : Fin MAX_CHANNELS) :
    countLine cnt line c = cnt c + carried [line] c := by
  unfold countLine carried
  cases h : channelOf line with
  | none => simp [h]
  | some d =>
    rcases eq_or_ne d c with rfl | hne
    · simp [h]
    · simp [h, hne, Ne.symm hne]

theorem carried_append (ls ls' : List Bytes) (c : Fin MAX_CHANNELS) :
    carried (ls ++ ls') c = carried ls c + carried ls' c := List.countP_append

theorem carried_cons (l : Bytes) (ls : List Bytes) (c : Fin MAX_CHANNELS) :
    carried (l :: ls) c = carried [l] c + carried ls c := carried_append [l] ls c

theorem isText_line {l t : Bytes} (hl : newline ∉ l) :
    IsText (l ++ newline :: t) ↔ 0 ∉ l ∧ l.length < lineRoom ∧ IsText t := by
  rw [IsText, shortLines_line hl, List.mem_append, List.mem_cons, IsText]
  have hzero : (0 : UInt8) ≠ newline := by decide
  tauto

theorem cStr_eq {s : Bytes} (h : 0 ∉ s) : cStr s = s :=
  List.takeWhile_eq_self_iff.2 fun c hc => by
    rw [decide_eq_true_eq]
    rintro rfl
    exact h hc

theorem readLines_nil (off : ℕ) (cnt : Fin MAX_CHANNELS → ℕ) :
    readLines [] off cnt = (off, cnt) := by
  rw [readLines, if_pos rfl]

theorem readLines_tail {s : Bytes} (hs : IsText s) (hnl : newline ∉ s) (off : ℕ)
    (cnt : Fin MAX_CHANNELS → ℕ) : readLines s off cnt = (off, cnt) := by
  obtain ⟨hzero, -, hroom⟩ := hs
  rw [linesOf_of_not_mem hnl] at hroom
  have hline : takeLine newline lineRoom s = s := takeLine_tail hnl hroom.le
  have hlast : s.getLast? ≠ some newline := fun h => hnl (List.mem_of_getLast? h)
  rcases eq_or_ne s [] with rfl | hne
  · exact readLines_nil off cnt
  · rw [readLines, if_neg hne]
    dsimp only
    rw [hline, cStr_eq hzero, if_pos]
    refine ⟨hne, hlast, ?_⟩
    rw [atEnd, Bool.and_eq_true, decide_eq_true_eq, decide_eq_true_eq]
    exact ⟨hroom, hlast⟩

theorem readLines_line {l t : Bytes} (hl : newline ∉ l) (hs : IsText (l ++ newline :: t)) (off : ℕ)
    (cnt : Fin MAX_CHANNELS → ℕ) :
    readLines (l ++ newline :: t) off cnt =
      readLines t (off + (l.length + 1)) (countLine cnt (l ++ [newline])) := by
  obtain ⟨hzero, hlen, -⟩ := (isText_line hl).1 hs
  have hline : takeLine newline lineRoom (l ++ newline :: t) = l ++ [newline] :=
    takeLine_line hl hlen t
  have hzero' : 0 ∉ l ++ [newline] := by
    have hne : (0 : UInt8) ≠ newline := by decide
    rw [List.mem_append, List.mem_singleton]
    tauto
  have hdrop : (l ++ newline :: t).drop (l.length + 1) = t := by
    rw [← List.singleton_append, ← List.append_assoc, List.drop_left' (by simp)]
  rw [readLines, if_neg (by simp)]
  dsimp only
  rw [hline, cStr_eq hzero', if_neg]
  · rw [List.length_append, List.length_singleton, hdrop]
  · rw [List.getLast?_concat]
    tauto

theorem readLines_eq {s : Bytes} (hs : IsText s) (off : ℕ) (cnt : Fin MAX_CHANNELS → ℕ) :
    readLines s off cnt = (off + (linesOf newline s).1.flatten.length,
      fun c => cnt c + carried (linesOf newline s).1 c) := by
  induction s using lines_induction (q := newline) generalizing off cnt with
  | tail s hnl =>
    rw [readLines_tail hs hnl, linesOf_of_not_mem hnl]
    rfl
  | line l t hl ih =>
    rw [readLines_line hl hs, ih ((isText_line hl).1 hs).2.2, linesOf_line hl, List.flatten_cons,
      List.length_append, List.length_append, List.length_singleton, Nat.add_assoc]
    congr 1
    funext c
    rw [countLine_eq, Nat.add_assoc, ← carried_cons]

/-! ## What a poll knows -/

/-- The counts of an entry are those of the lines of these bytes, which end at the offset. -/
structure CountsOf (bs : Bytes) (e : Ent) : Prop where
  length_eq : bs.length = e.off
  whole : (linesOf newline bs).2 = []
  cnt_eq : ∀ c, e.cnt c = carried (linesOf newline bs).1 c

/-- The bytes that were counted are still there, or the file is shorter than the offset. -/
def Ent.Noticed (e : Ent) (d : Day) (file : Option Bytes) (seen : Bytes) : Prop :=
  e.date = some d → ∀ bs, file = some bs → bs.length < e.off ∨ seen <+: bs

theorem countsOf_nil {e : Ent} (hoff : e.off = 0) (hcnt : e.cnt = 0) : CountsOf [] e :=
  ⟨hoff.symm, rfl, fun c => congrFun hcnt c⟩

theorem CountsOf.readLines {seen bs : Bytes} {e : Ent} (h : CountsOf seen e) (hseen : seen <+: bs)
    (hbs : IsText bs) :
    let r := readLines (bs.drop e.off) e.off e.cnt
    CountsOf (bs.take r.1) { e with off := r.1, cnt := r.2 } ∧
      ∀ c, r.2 c = carried (linesOf newline bs).1 c := by
  obtain ⟨rest, rfl⟩ := hseen
  have hrest : IsText rest :=
    ⟨fun hmem => hbs.1 (List.mem_append_right _ hmem), shortLines_append h.whole hbs.2⟩
  have hlines := linesOf_append h.whole rest
  have htake : (seen ++ rest).take (e.off + (linesOf newline rest).1.flatten.length) =
      seen ++ (linesOf newline rest).1.flatten := by
    have hwhole : rest.take (linesOf newline rest).1.flatten.length =
        (linesOf newline rest).1.flatten :=
      (congrArg (List.take _) (flatten_linesOf rest).symm).trans (List.take_left' rfl)
    rw [← h.length_eq, List.take_length_add_append, hwhole]
  rw [← h.length_eq, List.drop_left, h.length_eq, readLines_eq hrest]
  dsimp only
  rw [htake]
  refine ⟨⟨?_, ?_, fun c => ?_⟩, fun c => ?_⟩
  · rw [List.length_append, h.length_eq]
  · rw [linesOf_append h.whole, linesOf_flatten]
  · dsimp only
    rw [linesOf_append h.whole, linesOf_flatten, carried_append, h.cnt_eq]
  · rw [hlines, carried_append, h.cnt_eq]

theorem CountsOf.read {seen : Bytes} {e : Ent} (h : CountsOf seen e) (now : ℤ) {d : Day}
    {file : Option Bytes} (hfile : ∀ bs, file = some bs → IsText bs) (hok : e.Noticed d file seen) :
    CountsOf ((file.getD []).take (e.read now d file).off) (e.read now d file) ∧
      ∀ c, (e.read now d file).cnt c = carried (linesOf newline (file.getD [])).1 c := by
  cases file with
  | none => exact ⟨countsOf_nil rfl rfl, fun c => rfl⟩
  | some bs =>
    have htext := hfile bs rfl
    unfold Ent.read
    dsimp only
    rw [Option.getD_some]
    by_cases hdate : e.date = some d
    · rw [if_neg (not_not.2 hdate)]
      dsimp only
      split_ifs with hshort
      · exact (countsOf_nil (e := { e with t := now, off := 0, cnt := 0 }) rfl rfl).readLines
          (List.nil_prefix) htext
      · have hseen := (hok hdate bs rfl).resolve_left hshort
        have hnow : CountsOf seen { e with t := now } := ⟨h.length_eq, h.whole, h.cnt_eq⟩
        exact hnow.readLines hseen htext
    · rw [if_pos hdate]
      dsimp only
      rw [ite_self]
      exact (countsOf_nil (e := { e with t := now, date := some d, off := 0, cnt := 0 }) rfl
        rfl).readLines List.nil_prefix htext

/-! ## Runs -/

/-- At the start no entry was used, and the files are of lines. -/
structure World.Start (w : World) : Prop where
  fresh : ∀ id, w.cache id = .fresh
  seen_eq : ∀ id, w.seen id = []
  text : ∀ path bs, w.files path = some bs → IsText bs

/-- What the claims of a file are about: what is appended makes up lines that fit the buffer. -/
def World.Legal (w : World) : Event → Prop
  | .append path bs => IsText ((w.files path).getD [] ++ bs)
  | _ => True

/-- A poll that reads today's file again finds the bytes that were counted, or a file that is
shorter than the offset. -/
def World.Noticed (base : Bytes) (w : World) : Event → Prop
  | .poll id ch now force => w.reads id ch now force →
      (w.cache id).Noticed w.today (w.files (todayPath base id w.today)) (w.seen id)
  | _ => True

/-- A step of a run. -/
def Steps (base : Bytes) (w : World) (ev : Event) (w' : World) : Prop :=
  w' = w.step base ev ∧ w.Legal ev

/-- The invariant of the runs. -/
structure World.Counted (w : World) : Prop where
  counts : ∀ id, CountsOf (w.seen id) (w.cache id)
  text : ∀ path bs, w.files path = some bs → IsText bs

theorem World.Start.counted {w : World} (h : w.Start) : w.Counted := by
  refine ⟨fun id => ?_, h.text⟩
  rw [h.fresh, h.seen_eq]
  exact countsOf_nil rfl rfl

theorem isText_nil : IsText [] := by decide

theorem hostTodayCount_of_reads {base : Bytes} {w : World} {id : Bytes} {ch now : ℤ} {force : Bool}
    (h : w.reads id ch now force) :
    (hostTodayCount base w id ch now force).1 =
      (w.cache id).read now w.today (w.files (todayPath base id w.today)) := by
  unfold hostTodayCount
  dsimp only
  rw [dif_pos h.1, if_pos h.2]

theorem hostTodayCount_of_not_reads {base : Bytes} {w : World} {id : Bytes} {ch now : ℤ}
    {force : Bool} (h : ¬w.reads id ch now force) :
    (hostTodayCount base w id ch now force).1 = w.cache id := by
  unfold hostTodayCount
  dsimp only
  split_ifs with hch hreads
  · exact absurd ⟨hch, hreads⟩ h
  · rfl
  · rfl

theorem text_update {files : Bytes → Option Bytes} (h : ∀ path bs, files path = some bs → IsText bs)
    {path bs : Bytes} (hbs : IsText bs) :
    ∀ path' bs', Function.update files path (some bs) path' = some bs' → IsText bs' := by
  intro path' bs' heq
  rcases eq_or_ne path' path with rfl | hne
  · rw [Function.update_self, Option.some.injEq] at heq
    rwa [← heq]
  · rw [Function.update_of_ne hne] at heq
    exact h path' bs' heq

theorem World.Counted.step {base : Bytes} {w : World} {ev : Event} (h : w.Counted)
    (hlegal : w.Legal ev) (hok : w.Noticed base ev) : (w.step base ev).Counted := by
  cases ev with
  | append path bs => exact ⟨h.counts, text_update h.text hlegal⟩
  | truncate path => exact ⟨h.counts, text_update h.text isText_nil⟩
  | day d => exact ⟨h.counts, h.text⟩
  | poll id ch now force =>
    refine ⟨fun id' => ?_, h.text⟩
    dsimp only [World.step]
    by_cases hreads : w.reads id ch now force
    · rw [if_pos hreads, hostTodayCount_of_reads hreads]
      rcases eq_or_ne id' id with rfl | hne
      · rw [Function.update_self, Function.update_self]
        exact ((h.counts id').read now (h.text _) (hok hreads)).1
      · rw [Function.update_of_ne hne, Function.update_of_ne hne]
        exact h.counts id'
    · rw [if_neg hreads, hostTodayCount_of_not_reads hreads, Function.update_eq_self]
      exact h.counts id'

theorem hostTodayCount_snd {base : Bytes} {w : World} {id : Bytes} {now : ℤ} {force : Bool}
    (c : Fin MAX_CHANNELS) :
    (hostTodayCount base w id c.val now force).2 =
      (hostTodayCount base w id c.val now force).1.cnt c := by
  have hc : (0 : ℤ) ≤ c.val ∧ (c.val : ℤ) < MAX_CHANNELS := ⟨by omega, by omega⟩
  unfold hostTodayCount
  dsimp only
  rw [dif_pos hc]
  rfl

/-! ## Without truncations -/

/-- The files begin with what was counted of them. -/
def World.Growing (base : Bytes) (w : World) : Prop :=
  ∀ id d, (w.cache id).date = some d → w.seen id <+: (w.files (todayPath base id d)).getD []

theorem World.Growing.noticed {base : Bytes} {w : World} (h : w.Growing base) (ev : Event) :
    w.Noticed base ev := by
  cases ev with
  | poll id ch now force =>
    intro _ hdate bs hbs
    have hseen := h id w.today hdate
    rw [hbs] at hseen
    exact Or.inr hseen
  | append path bs => trivial
  | truncate path => trivial
  | day d => trivial

theorem date_read (e : Ent) (now : ℤ) (d : Day) (file : Option Bytes) :
    (e.read now d file).date = some d := by
  have hdate : ∀ x, (if e.date ≠ some d then { e with t := x, date := some d, off := 0, cnt := 0 }
      else { e with t := x }).date = some d := by
    intro x
    split_ifs with h
    · rfl
    · exact not_not.1 h
  unfold Ent.read
  cases file with
  | none => exact hdate now
  | some bs =>
    dsimp only
    have hshort : ∀ (e' : Ent) (n : ℕ),
        (if n < e'.off then { e' with off := 0, cnt := 0 } else e').date = e'.date := by
      intro e' n
      split_ifs <;> rfl
    rw [hshort]
    exact hdate now

theorem World.Growing.step {base : Bytes} {w : World} {ev : Event} (h : w.Growing base)
    (hev : ∀ path, ev ≠ .truncate path) : (w.step base ev).Growing base := by
  cases ev with
  | append path bs =>
    intro id d hdate
    dsimp only [World.step]
    rcases eq_or_ne (todayPath base id d) path with heq | hne
    · rw [heq, Function.update_self, Option.getD_some]
      have hseen := h id d hdate
      rw [heq] at hseen
      exact hseen.trans (List.prefix_append _ _)
    · rw [Function.update_of_ne hne]
      exact h id d hdate
  | truncate path => exact absurd rfl (hev path)
  | day d => exact h
  | poll id ch now force =>
    intro id' d hdate
    dsimp only [World.step] at hdate ⊢
    by_cases hreads : w.reads id ch now force
    · rw [hostTodayCount_of_reads hreads] at hdate ⊢
      rw [if_pos hreads]
      rcases eq_or_ne id' id with rfl | hne
      · rw [Function.update_self] at hdate ⊢
        rw [date_read, Option.some.injEq] at hdate
        rw [← hdate]
        exact List.take_prefix _ _
      · rw [Function.update_of_ne hne] at hdate ⊢
        exact h id' d hdate
    · rw [hostTodayCount_of_not_reads hreads, Function.update_eq_self] at hdate
      rw [if_neg hreads]
      exact h id' d hdate

theorem noticed_of_appends {base : Bytes} {w w' : World} {es : List Event} (hw : w.Start)
    (hes : ∀ ev ∈ es, ∀ path, ev ≠ .truncate path) (hrun : Run (Steps base) w es w') :
    Run (fun w ev w' => Steps base w ev w' ∧ w.Noticed base ev) w es w' ∧ w'.Growing base := by
  have hgrow : w.Growing base := by
    intro id d hdate
    rw [hw.fresh] at hdate
    exact absurd hdate (by simp [Ent.fresh])
  clear hw
  induction hrun with
  | nil w => exact ⟨Run.nil w, hgrow⟩
  | @cons w w₁ w' ev es hstep hrun ih =>
    obtain ⟨hev, hes'⟩ := List.forall_mem_cons.1 hes
    have hnext : w₁.Growing base := by
      rw [hstep.1]
      exact hgrow.step hev
    obtain ⟨hrun', hgrow'⟩ := ih hes' hnext
    exact ⟨Run.cons ⟨hstep, hgrow.noticed ev⟩ hrun', hgrow'⟩

/-! ## The counts -/

/-- In a run in which every poll notices what has become of the file, one that reads it returns the
number of today's complete lines, for every channel. -/
theorem count_of_run {base : Bytes} {w w' : World} {es : List Event} (hw : w.Start)
    (hrun : Run (fun w ev w' => Steps base w ev w' ∧ w.Noticed base ev) w es w') (id : Bytes)
    (c : Fin MAX_CHANNELS) (now : ℤ) (force : Bool) (hreads : w'.reads id c.val now force)
    (hok : w'.Noticed base (.poll id c.val now force)) :
    (hostTodayCount base w' id c.val now force).2 = w'.count base id c := by
  have hcounted : w'.Counted := by
    refine hrun.invariant (P := World.Counted) ?_ hw.counted
    rintro w ev _ ⟨⟨rfl, hlegal⟩, hok⟩ h
    exact h.step hlegal hok
  rw [hostTodayCount_snd, hostTodayCount_of_reads hreads]
  exact ((hcounted.counts id).read now (hcounted.text _) (hok hreads)).2 c

/-- Nothing has happened yet. -/
def atMidnight (d : Day) : World := ⟨fun _ => none, d, fun _ => .fresh, fun _ => []⟩

theorem start_atMidnight (d : Day) : (atMidnight d).Start :=
  ⟨fun _ => rfl, fun _ => rfl, fun _ _ h => absurd h (Option.some_ne_none _).symm⟩

/-- A line of a channel. -/
def lineOf (digit : UInt8) : Bytes := ascii "\x7b\"ch\":" ++ [digit] ++ ascii "\x7d\n"

/-- A line, a poll while the next one is being written, and the rest of that. -/
def pieces (path id : Bytes) : List Event :=
  [.append path (lineOf 49 ++ (lineOf 49).take 4), .poll id 1 1 true,
    .append path ((lineOf 49).drop 4)]

theorem run_pieces (base id : Bytes) (d : Day) :
    Run (Steps base) (atMidnight d) (pieces (todayPath base id d) id)
      ((pieces (todayPath base id d) id).foldl (World.step base) (atMidnight d)) := by
  have hfile : (((atMidnight d).step base
      (.append (todayPath base id d) (lineOf 49 ++ (lineOf 49).take 4))).step base
        (.poll id 1 1 true)).files (todayPath base id d) =
          some (lineOf 49 ++ (lineOf 49).take 4) := Function.update_self _ _ _
  refine Run.cons ⟨rfl, ?_⟩ (Run.cons ⟨rfl, trivial⟩ (Run.cons ⟨rfl, ?_⟩ (Run.nil _)))
  · rw [World.Legal]
    exact show IsText (lineOf 49 ++ (lineOf 49).take 4) by decide
  · rw [World.Legal, hfile]
    decide

theorem count_of_pieces :
    (hostTodayCount (ascii "/root") ((pieces (todayPath (ascii "/root") (ascii "ais")
      (Vector.replicate 8 48)) (ascii "ais")).foldl (World.step (ascii "/root"))
        (atMidnight (Vector.replicate 8 48))) (ascii "ais") 1 4000 true).2 = 2 := by
  obtain ⟨hrun, hgrow⟩ := noticed_of_appends (start_atMidnight (Vector.replicate 8 48))
    (by simp [pieces]) (run_pieces (ascii "/root") (ascii "ais") (Vector.replicate 8 48))
  have hcount := count_of_run (start_atMidnight (Vector.replicate 8 48)) hrun (ascii "ais")
    ⟨1, by decide⟩ 4000 true ⟨by decide, rfl⟩ (hgrow.noticed _)
  refine hcount.trans ?_
  rw [World.count]
  decide

/-! ## Files that grow again -/

theorem read_fresh (now : ℤ) (d : Day) {bs : Bytes} (hbs : IsText bs) :
    Ent.fresh.read now d (some bs) =
      ⟨now, some d, (linesOf newline bs).1.flatten.length, carried (linesOf newline bs).1⟩ := by
  have hdate : Ent.fresh.date ≠ some d := (Option.some_ne_none d).symm
  unfold Ent.read
  simp only [hdate, ne_eq, not_false_eq_true, if_true, ite_self]
  rw [List.drop_zero, readLines_eq hbs]
  simp

theorem cnt_read_of_length_eq {e : Ent} {d : Day} (hdate : e.date = some d) {bs : Bytes}
    (hlen : bs.length = e.off) (now : ℤ) : (e.read now d (some bs)).cnt = e.cnt := by
  unfold Ent.read
  simp only [hdate, ne_eq, not_true_eq_false, if_false, hlen, lt_irrefl]
  rw [← hlen, List.drop_length, readLines_nil]

/-- A file is written and counted, truncated, and written again. -/
def regrow (base id : Bytes) (d : Day) (bs bs' : Bytes) : List Event :=
  [.append (todayPath base id d) bs, .poll id 0 1 true, .truncate (todayPath base id d),
    .append (todayPath base id d) bs']

theorem hostTodayCount_regrow (base id : Bytes) (d : Day) {bs bs' : Bytes} (hbs : IsText bs)
    (hwhole : (linesOf newline bs).1.flatten.length = bs'.length) (c : Fin MAX_CHANNELS) (now : ℤ) :
    let w := (regrow base id d bs bs').foldl (World.step base) (atMidnight d)
    (hostTodayCount base w id c.val now true).2 = carried (linesOf newline bs).1 c ∧
      w.count base id c = carried (linesOf newline bs').1 c := by
  intro w
  have hfile : w.files (todayPath base id d) = some bs' := by
    simp [w, regrow, World.step]
  have hcache : w.cache id =
      ⟨1, some d, (linesOf newline bs).1.flatten.length, carried (linesOf newline bs).1⟩ := by
    have hreads : ((atMidnight d).step base (.append (todayPath base id d) bs)).reads id 0 1 true :=
      ⟨by decide, rfl⟩
    have hfirst : ((atMidnight d).step base (.append (todayPath base id d) bs)).files
        (todayPath base id d) = some bs := by
      simp [World.step, atMidnight]
    calc w.cache id
      _ = (hostTodayCount base ((atMidnight d).step base (.append (todayPath base id d) bs)) id 0 1
          true).1 := Function.update_self _ _ _
      _ = Ent.fresh.read 1 d (some bs) := by
        rw [hostTodayCount_of_reads hreads, ← hfirst]
        rfl
      _ = _ := read_fresh 1 d hbs
  have hreads : w.reads id c.val now true := ⟨⟨by omega, by omega⟩, rfl⟩
  have htoday : w.today = d := rfl
  refine ⟨?_, ?_⟩
  · rw [hostTodayCount_snd, hostTodayCount_of_reads hreads, htoday, hfile, hcache,
      cnt_read_of_length_eq rfl hwhole.symm]
  · rw [World.count, htoday, hfile, Option.getD_some]

theorem run_regrow (base id : Bytes) (d : Day) {bs bs' : Bytes} (hbs : IsText bs)
    (hbs' : IsText bs') :
    Run (Steps base) (atMidnight d) (regrow base id d bs bs')
      ((regrow base id d bs bs').foldl (World.step base) (atMidnight d)) := by
  have hlast : ((((atMidnight d).step base (.append (todayPath base id d) bs)).step base
      (.poll id 0 1 true)).step base (.truncate (todayPath base id d))).files
        (todayPath base id d) = some [] := Function.update_self _ _ _
  refine Run.cons ⟨rfl, hbs⟩ (Run.cons ⟨rfl, trivial⟩ (Run.cons ⟨rfl, trivial⟩
    (Run.cons ⟨rfl, ?_⟩ (Run.nil _))))
  rw [World.Legal, hlast]
  exact hbs'

/-- The poll does not see that the line of channel 1 has become one of channel 2. -/
theorem ne_count_of_regrown :
    ¬∀ (base : Bytes) (w w' : World) (es : List Event) (id : Bytes) (c : Fin MAX_CHANNELS) (now : ℤ)
      (force : Bool), w.Start → Run (Steps base) w es w' → w'.reads id c.val now force →
      (hostTodayCount base w' id c.val now force).2 = w'.count base id c := by
  intro h
  have hone : IsText (lineOf 49) := by decide
  have htwo : IsText (lineOf 50) := by decide
  have hlen : (linesOf newline (lineOf 49)).1.flatten.length = (lineOf 50).length := by decide
  obtain ⟨hcount, hlines⟩ := hostTodayCount_regrow (ascii "/root") (ascii "ais")
    (Vector.replicate 8 48) hone hlen ⟨2, by decide⟩ 4000
  have heq := h (ascii "/root") _ _ _ (ascii "ais") ⟨2, by decide⟩ 4000 true
    (start_atMidnight (Vector.replicate 8 48)) (run_regrow _ (ascii "ais") _ hone htwo)
    ⟨by decide, rfl⟩
  rw [hcount, hlines] at heq
  exact absurd heq (by decide)

end Bewe.ModulePipe.TodayCount
