import Bewe.Df.Engine

/-!
# Requests and results of direction finding

Many threads. Each that asks (`df_request_by_display_num`, one thread for every JOIN beside the one of
the console) is in a call of its own; the main loop takes (`df_pump`, then the drain of
`pending_df_result`); and the engine measures. Between them lie the slots of the engine for a request
and for a result, with the flags `req_pending`, `is_armed` and `res_ready`; in front of them
`pending_df_result`, for results and refusals, and `df_req_auto`, the origin of whatever comes next.
One event is one access of one thread to what the threads share. What the measuring thread does between
its accesses is in `Df.Engine`: a request that it has picked up it answers once, with any status.

A request is on its way from the slot of the engine to `pending_df_result` (`inFlight`). As long as
nothing on this way is overwritten, the requests that were accepted are those that were delivered and
those on their way (`Accounted`). `answered_of_run` says so of every run of this kind, and
`not_answered_of_refusal` is a run in which a refusal changes the origin of a result.
-/

namespace Bewe.Df

/-! ## The slots -/

/-- What a request takes along: `seq`, the channel and its number, and, kept beside it, whether it
comes from AUTO DF. -/
structure Ticket where
  seq : ℕ
  ui_tag : ℤ
  ui_dnum : ℤ
  from_auto : Bool
  deriving DecidableEq

/-- `pending_df_result`, as far as it says whose result it is; `refusal` is the text of a refusal. -/
structure PendingDFResult where
  dnum : ℤ
  arr_idx : ℤ
  ok : Bool
  from_auto : Bool
  refusal : Option String
  deriving DecidableEq

/-- Where a thread that asks is: in no call; in a request that no check before `armed` has refused; in
`submit` before its check, behind it, and with the slot filled; about to write a refusal, and with one
written that is not marked as pending. -/
inductive Asking
  | idle
  | asked (t : Ticket)
  | submitting (t : Ticket)
  | writing (t : Ticket)
  | written (t : Ticket)
  | refusing (dnum : ℤ) (msg : String)
  | posting
  deriving DecidableEq

/-- Where the main loop is: in neither call; in `df_pump` behind its look at `pending`, in `poll` with
`res_ready` taken, with the result in hand, and with it written and not marked as pending; or in the
drain with `pending` taken. -/
inductive Pumping
  | idle
  | looked
  | fetching
  | holding (t : Ticket) (ok : Bool)
  | filled
  | reading
  deriving DecidableEq

/-- Where the measuring thread is: without a request; with one that it has taken and not copied, or
copied and not armed for; measuring; with a result in the slot that is not marked as ready, and with
one that is. -/
inductive Measuring
  | idle
  | taken
  | copied
  | armed
  | published
  | ready
  deriving DecidableEq

/-- What the threads share, and where they are. `req`, `cur` and `res` are the slot of the engine for
a request, the copy of the measuring thread and the slot for a result, whose content is the request
and whether it was accepted. The history has what was accepted and how many of these `df_pump` has
moved, what was drained, whether `pending_df_result` has something that no drain has read (`full`), and
whether a refusal took the place of something of this kind. -/
structure Slots where
  asking : ℕ → Asking
  pumping : Pumping
  measuring : Measuring
  req : Ticket
  cur : Ticket
  res : Ticket
  res_ok : Bool
  req_pending : Bool
  is_armed : Bool
  res_ready : Bool
  cancel_req : Bool
  df_seq : ℕ
  df_req_auto : Bool
  pending : Bool
  pending_df_result : PendingDFResult
  accepted : List Ticket
  fetched : ℕ
  full : Bool
  drained : List PendingDFResult
  replaced : Bool

/-- No request, no result. -/
def Slots.start : Slots where
  asking _ := .idle
  pumping := .idle
  measuring := .idle
  req := ⟨0, -1, 0, false⟩
  cur := ⟨0, -1, 0, false⟩
  res := ⟨0, -1, 0, false⟩
  res_ok := false
  req_pending := false
  is_armed := false
  res_ready := false
  cancel_req := false
  df_seq := 0
  df_req_auto := false
  pending := false
  pending_df_result := ⟨0, -1, false, false, none⟩
  accepted := []
  fetched := 0
  full := false
  drained := []
  replaced := false

/-! ## The threads that ask -/

/-- Thread `i` goes on to `a`. -/
def Slots.goOn (s : Slots) (i : ℕ) (a : Asking) : Slots :=
  { s with asking := Function.update s.asking i a }

/-- What `df_request_by_display_num` finds before it looks at the engine: the kind of receiver,
whether the engine runs, the first active channel with the number, whether this has a bandwidth, and
if it lies out of band the text that says so. -/
structure Outlook where
  kraken : Bool
  running : Bool
  arr : Option ℤ
  zero_bw : Bool
  out_of_band : Option String

/-- Why a request is refused before the engine is looked at, or the channel that it is for. -/
def Outlook.check (o : Outlook) : String ⊕ ℤ :=
  if !o.kraken then .inl "Not Available"
  else if !o.running then .inl "Not Available"
  else
    match o.arr with
    | none => .inl "no such filter"
    | some arr =>
      if o.zero_bw then .inl "zero bandwidth"
      else
        match o.out_of_band with
        | some msg => .inl msg
        | none => .inr arr

/-- `df_request_by_display_num`, up to `armed`. -/
def ask (i : ℕ) (dnum : ℤ) (from_auto : Bool) (o : Outlook) (s : Slots) : Slots :=
  let s := { s with df_req_auto := from_auto }
  match o.check with
  | .inl msg => s.goOn i (.refusing dnum msg)
  | .inr arr => s.goOn i (.asked ⟨0, arr, dnum, from_auto⟩)

/-- It looks at `armed` and, where `calibrating` has the text, finds that the link is not up; else
`df_submit` makes the request. -/
def checkArmed (i : ℕ) (calibrating : Option String) (t : Ticket) (s : Slots) : Slots :=
  if s.is_armed then s.goOn i (.refusing t.ui_dnum "already running")
  else
    match calibrating with
    | some msg => s.goOn i (.refusing t.ui_dnum msg)
    | none => { s with df_seq := s.df_seq + 1 }.goOn i (.submitting { t with seq := s.df_seq + 1 })

/-- The check of `submit`. -/
def checkFree (i : ℕ) (running : Bool) (t : Ticket) (s : Slots) : Slots :=
  if !running || s.is_armed || s.req_pending then s.goOn i (.refusing t.ui_dnum "busy")
  else s.goOn i (.writing t)

/-- `submit` fills the slot, under `slot_mtx`. -/
def writeReq (i : ℕ) (t : Ticket) (s : Slots) : Slots := { s with req := t }.goOn i (.written t)

/-- `submit` marks the slot as filled: the request is accepted. -/
def commit (i : ℕ) (t : Ticket) (s : Slots) : Slots :=
  { s with
    cancel_req := false
    req_pending := true
    accepted := s.accepted ++ [t] }.goOn i .idle

/-- `df_post_refusal`, up to `pending`. -/
def postRefusal (i : ℕ) (dnum : ℤ) (msg : String) (s : Slots) : Slots :=
  { s with
    pending_df_result :=
      { dnum, arr_idx := -1, ok := false, from_auto := s.df_req_auto, refusal := some msg }
    full := true
    replaced := s.replaced || s.full }.goOn i .posting

/-- `df_post_refusal` marks the refusal as pending. -/
def post (i : ℕ) (s : Slots) : Slots := { s with pending := true }.goOn i .idle

/-- An access of a thread that asks. -/
inductive AskEvent
  | ask (dnum : ℤ) (from_auto : Bool) (o : Outlook)
  | checkArmed (calibrating : Option String)
  | checkFree (running : Bool)
  | writeReq
  | commit
  | postRefusal
  | post

/-- One access of thread `i`; nothing happens where the thread is not where it belongs. -/
def askNext (i : ℕ) (e : AskEvent) (s : Slots) : Slots :=
  match e, s.asking i with
  | .ask dnum from_auto o, .idle => ask i dnum from_auto o s
  | .checkArmed calibrating, .asked t => checkArmed i calibrating t s
  | .checkFree running, .submitting t => checkFree i running t s
  | .writeReq, .writing t => writeReq i t s
  | .commit, .written t => commit i t s
  | .postRefusal, .refusing dnum msg => postRefusal i dnum msg s
  | .post, .posting => post i s
  | _, _ => s

/-! ## The main loop -/

/-- `df_pump`, up to `poll`. -/
def pump (running : Bool) (s : Slots) : Slots :=
  if !running || s.pending then s else { s with pumping := .looked }

/-- `poll` takes `res_ready`. -/
def poll (s : Slots) : Slots :=
  if s.res_ready then { s with pumping := .fetching, res_ready := false }
  else { s with pumping := .idle }

/-- `poll` copies the result, under `slot_mtx`. -/
def fetch (s : Slots) : Slots := { s with pumping := .holding s.res s.res_ok }

/-- `df_pump` writes `pending_df_result`. -/
def fill (t : Ticket) (ok : Bool) (s : Slots) : Slots :=
  { s with
    pumping := .filled
    pending_df_result :=
      { dnum := t.ui_dnum, arr_idx := t.ui_tag, ok, from_auto := s.df_req_auto, refusal := none }
    full := true
    fetched := s.fetched + 1 }

/-- `df_pump` marks the result as pending. -/
def handOver (s : Slots) : Slots := { s with pumping := .idle, pending := true }

/-- The drain takes `pending`. -/
def drain (s : Slots) : Slots :=
  if s.pending then { s with pumping := .reading, pending := false } else s

/-- The drain reads `pending_df_result`. -/
def read (s : Slots) : Slots :=
  { s with pumping := .idle, full := false, drained := s.drained ++ [s.pending_df_result] }

/-- An access of the main loop. -/
inductive PumpEvent
  | pump (running : Bool)
  | poll
  | fetch
  | fill
  | handOver
  | drain
  | read

/-- One access of the main loop. -/
def pumpNext (e : PumpEvent) (s : Slots) : Slots :=
  match e, s.pumping with
  | .pump running, .idle => pump running s
  | .poll, .looked => poll s
  | .fetch, .fetching => fetch s
  | .fill, .holding t ok => fill t ok s
  | .handOver, .filled => handOver s
  | .drain, .idle => drain s
  | .read, .reading => read s
  | _, _ => s

/-! ## The measuring thread -/

/-- An access of the measuring thread; `cancel` is one of whoever cancels. -/
inductive MeasureEvent
  | cancel
  | take
  | copy
  | arm
  | publish (ok : Bool)
  | markReady
  | disarm

/-- One access of the measuring thread. -/
def measureNext (e : MeasureEvent) (s : Slots) : Slots :=
  match e, s.measuring with
  | .cancel, _ => { s with cancel_req := true }
  | .take, .idle => if s.req_pending then { s with req_pending := false, measuring := .taken } else s
  | .copy, .taken => { s with cur := s.req, measuring := .copied }
  | .arm, .copied => { s with is_armed := true, measuring := .armed }
  | .publish ok, .copied => { s with res := s.cur, res_ok := ok, measuring := .published }
  | .publish ok, .armed => { s with res := s.cur, res_ok := ok, measuring := .published }
  | .markReady, .published => { s with res_ready := true, measuring := .ready }
  | .disarm, .ready => { s with is_armed := false, measuring := .idle }
  | _, _ => s

/-- An access of any thread. -/
inductive SlotEvent
  | asking (i : ℕ) (e : AskEvent)
  | pumping (e : PumpEvent)
  | measuring (e : MeasureEvent)

/-- One event. -/
def Slots.next (s : Slots) : SlotEvent → Slots
  | .asking i e => askNext i e s
  | .pumping e => pumpNext e s
  | .measuring e => measureNext e s

/-! ## What is in flight -/

/-- The result that `df_pump` has in hand. -/
@[simp]
def Slots.inHand (s : Slots) : List Ticket :=
  match s.pumping with
  | .holding t _ => [t]
  | _ => []

/-- A result that `poll` has not copied, whether it is marked as ready, or not yet, or no more. -/
@[simp]
def Slots.inRes (s : Slots) : List Ticket :=
  if s.res_ready ∨ s.measuring = .published ∨ s.pumping = .fetching then [s.res] else []

/-- The request of the measuring thread, in the slot or copied. -/
@[simp]
def Slots.inEngine (s : Slots) : List Ticket :=
  match s.measuring with
  | .taken => [s.req]
  | .copied => [s.cur]
  | .armed => [s.cur]
  | _ => []

/-- The requests on their way, the first one in front. -/
@[simp]
def Slots.inFlight (s : Slots) : List Ticket :=
  s.inHand ++ s.inRes ++ s.inEngine ++ if s.req_pending then [s.req] else []

/-- The requests that were accepted and whose result `df_pump` has not moved. -/
def Slots.outstanding (s : Slots) : List Ticket := s.accepted.drop s.fetched

/-- What lies in `pending_df_result` and no drain has read. -/
def Slots.undelivered (s : Slots) : List PendingDFResult :=
  if s.full then [s.pending_df_result] else []

/-- What a result says of its request. -/
def PendingDFResult.of (t : Ticket) : ℤ × ℤ × Bool := (t.ui_dnum, t.ui_tag, t.from_auto)

/-- The results among what was delivered, as far as they say whose they are. -/
def identities (l : List PendingDFResult) : List (ℤ × ℤ × Bool) :=
  (l.filter fun p => p.refusal.isNone).map fun p => (p.dnum, p.arr_idx, p.from_auto)

/-- The accounts: what was accepted and not moved is in flight, in this order, and of the origin
that comes next; what was moved is delivered or pending under its own identity; nothing undelivered
was replaced; a slot that a request has filled is empty to the others until this is accepted; and what
is undelivered is in one hand, of the thread that wrote it, of the flag or of the drain. -/
structure Accounted (s : Slots) : Prop where
  flight : s.outstanding = s.inFlight
  origin : ∀ t ∈ s.outstanding, t.from_auto = s.df_req_auto
  delivered : identities (s.drained ++ s.undelivered) =
    (s.accepted.take s.fetched).map PendingDFResult.of
  fetched : s.fetched ≤ s.accepted.length
  replaced : s.replaced = false
  slot : ∀ i t, s.asking i = .written t → s.req_pending = false ∧ s.req = t ∧ s.measuring ≠ .taken
  alone : ∀ i j t t', s.asking i = .written t → s.asking j = .written t' → i = j
  apart : s.measuring = .published → s.res_ready = false ∧ s.pumping ≠ .fetching
  once : s.pumping = .fetching → s.res_ready = false
  moving : s.pumping = .filled ∨ s.pumping = .reading → s.full = true
  flag : s.pending = true → s.full = true ∧ s.pumping ≠ .filled ∧ s.pumping ≠ .reading
  posting : ∀ i, s.asking i = .posting →
    s.full = true ∧ s.pending = false ∧ s.pumping ≠ .filled ∧ s.pumping ≠ .reading
  poster : ∀ i j, s.asking i = .posting → s.asking j = .posting → i = j
  hand : s.full = true → s.pending = true ∨ s.pumping = .filled ∨ s.pumping = .reading ∨
    s.pending_df_result.refusal.isSome = true

/-- What an access of a thread that asks has to meet: a call comes from where all come that are
outstanding, and its request is accepted while its origin is still the one that comes next; `submit`
fills a slot that is empty, that no other call has filled, and whose request the measuring thread has
not taken without copying it; and a refusal finds nothing undelivered in `pending_df_result`. -/
def AskOrderly (i : ℕ) (e : AskEvent) (s : Slots) : Prop :=
  match e, s.asking i with
  | .ask _ from_auto _, .idle => ∀ t ∈ s.outstanding, t.from_auto = from_auto
  | .writeReq, .writing _ =>
    s.req_pending = false ∧ s.measuring ≠ .taken ∧ ∀ j t, s.asking j ≠ .written t
  | .commit, .written t => t.from_auto = s.df_req_auto
  | .postRefusal, .refusing _ _ => s.full = false
  | _, _ => True

/-- What an access has to meet: beside this, `df_pump` finds no refusal in the place of its result that
came after its look at `pending`, and a result is published when `poll` has copied the one before. -/
def Orderly (s : Slots) (e : SlotEvent) : Prop :=
  match e, s.pumping, s.measuring with
  | .asking i e, _, _ => AskOrderly i e s
  | .pumping .fill, .holding _ _, _ => s.full = false
  | .measuring (.publish _), a, .copied => s.res_ready = false ∧ a ≠ .fetching
  | .measuring (.publish _), a, .armed => s.res_ready = false ∧ a ≠ .fetching
  | _, _, _ => True

variable {s : Slots}

/-- At the start everything is accounted for. -/
theorem accounted_start : Accounted .start where
  flight := rfl
  origin t ht := by simp [Slots.outstanding, Slots.start] at ht
  delivered := rfl
  fetched := Nat.le_refl 0
  replaced := rfl
  slot i t ht := by simp [Slots.start] at ht
  alone i j t t' ht := by simp [Slots.start] at ht
  apart h := by simp [Slots.start] at h
  once h := by simp [Slots.start] at h
  moving h := by simp [Slots.start] at h
  flag h := by simp [Slots.start] at h
  posting i hi := by simp [Slots.start] at hi
  poster i j hi := by simp [Slots.start] at hi
  hand h := by simp [Slots.start] at h

/-- The identities of two lists of results are those of one behind the other. -/
theorem identities_append (l m : List PendingDFResult) :
    identities (l ++ m) = identities l ++ identities m := by
  rw [identities, List.filter_append, List.map_append]
  rfl

/-! ### The threads that ask -/

/-- A thread that is elsewhere than thread `i` went is another one, and was there before. -/
theorem asking_of_goOn {i j : ℕ} {a b : Asking} (h : (s.goOn i a).asking j = b) (hne : a ≠ b) :
    j ≠ i ∧ s.asking j = b := by
  by_cases hj : j = i
  · subst hj
    exact absurd ((Function.update_self ..).symm.trans h) hne
  · exact ⟨hj, (Function.update_of_ne hj ..).symm.trans h⟩

/-- A thread goes on inside of its call. -/
theorem Accounted.goOn (h : Accounted s) (i : ℕ) {a : Asking} (hwritten : ∀ t, a ≠ .written t)
    (hposting : a ≠ .posting) : Accounted (s.goOn i a) :=
  { h with
    slot := fun j t hj => h.slot j t (asking_of_goOn hj (hwritten t)).2
    alone := fun j k t t' hj hk => h.alone j k t t' (asking_of_goOn hj (hwritten t)).2
      (asking_of_goOn hk (hwritten t')).2
    posting := fun j hj => h.posting j (asking_of_goOn hj hposting).2
    poster := fun j k hj hk => h.poster j k (asking_of_goOn hj hposting).2
      (asking_of_goOn hk hposting).2 }

/-- A call starts that has the origin of all that is outstanding. -/
theorem Accounted.ask (h : Accounted s) (i : ℕ) (dnum : ℤ) (from_auto : Bool) (o : Outlook)
    (horigin : ∀ t ∈ s.outstanding, t.from_auto = from_auto) :
    Accounted (ask i dnum from_auto o s) := by
  have hstore : Accounted { s with df_req_auto := from_auto } := { h with origin := horigin }
  unfold Df.ask
  cases o.check with
  | inl msg => exact hstore.goOn i (by simp) (by simp)
  | inr arr => exact hstore.goOn i (by simp) (by simp)

/-- The checks before `submit` only refuse or go on. -/
theorem Accounted.checkArmed (h : Accounted s) (i : ℕ) (calibrating : Option String) (t : Ticket) :
    Accounted (checkArmed i calibrating t s) := by
  have hseq : Accounted { s with df_seq := s.df_seq + 1 } := { h with }
  unfold Df.checkArmed
  split_ifs with harmed
  · exact h.goOn i (by simp) (by simp)
  · cases calibrating with
    | some msg => exact h.goOn i (by simp) (by simp)
    | none => exact hseq.goOn i (by simp) (by simp)

/-- So does the check of `submit`. -/
theorem Accounted.checkFree (h : Accounted s) (i : ℕ) (running : Bool) (t : Ticket) :
    Accounted (checkFree i running t s) := by
  unfold Df.checkFree
  split_ifs with hbusy
  · exact h.goOn i (by simp) (by simp)
  · exact h.goOn i (by simp) (by simp)

/-- `submit` fills a slot that has nothing in flight, and no other call has. -/
theorem Accounted.writeReq (h : Accounted s) (i : ℕ) (t : Ticket) (hempty : s.req_pending = false)
    (htaken : s.measuring ≠ .taken) (hnone : ∀ j t, s.asking j ≠ .written t) :
    Accounted (writeReq i t s) := by
  have honly : ∀ j t', (Df.writeReq i t s).asking j = .written t' → j = i ∧ t = t' := by
    intro j t' hj
    by_cases hne : Asking.written t = .written t'
    · refine ⟨?_, Asking.written.inj hne⟩
      by_contra hji
      exact hnone j t' ((Function.update_of_ne hji ..).symm.trans hj)
    · exact absurd (asking_of_goOn hj hne).2 (hnone j t')
  refine { h with
    flight := ?_
    slot := fun j t' hj => ⟨hempty, (honly j t' hj).2, htaken⟩
    alone := fun j k t' t'' hj hk => (honly j t' hj).1.trans (honly k t'' hk).1.symm
    posting := fun j hj => h.posting j (asking_of_goOn hj (by simp)).2
    poster := fun j k hj hk => h.poster j k (asking_of_goOn hj (by simp)).2
      (asking_of_goOn hk (by simp)).2 }
  refine h.flight.trans ?_
  cases hm : s.measuring with
  | taken => exact absurd hm htaken
  | idle | copied | armed | published | ready =>
    simp [Df.writeReq, Slots.goOn, hempty, hm]

/-- `submit` accepts the request that lies in the slot, which is the last one in flight. -/
theorem Accounted.commit (h : Accounted s) {i : ℕ} {t : Ticket} (hwritten : s.asking i = .written t)
    (horigin : t.from_auto = s.df_req_auto) : Accounted (commit i t s) := by
  obtain ⟨hempty, hreq, htaken⟩ := h.slot i t hwritten
  have hdrop : (s.accepted ++ [t]).drop s.fetched = s.outstanding ++ [t] := by
    rw [List.drop_append_of_le_length h.fetched]
    rfl
  have hnone : ∀ j t', (Df.commit i t s).asking j ≠ .written t' := by
    intro j t' hj
    obtain ⟨hne, hother⟩ := asking_of_goOn hj (by simp)
    exact hne (h.alone j i t' t hother hwritten)
  refine { h with
    flight := ?_
    origin := fun t' ht => ?_
    delivered := ?_
    fetched := ?_
    slot := fun j t' hj => absurd hj (hnone j t')
    alone := fun j k t' t'' hj => absurd hj (hnone j t')
    posting := fun j hj => h.posting j (asking_of_goOn hj (by simp)).2
    poster := fun j k hj hk => h.poster j k (asking_of_goOn hj (by simp)).2
      (asking_of_goOn hk (by simp)).2 }
  · refine hdrop.trans ?_
    rw [h.flight]
    simp [Df.commit, Slots.goOn, hempty, hreq]
  · replace ht : t' ∈ s.outstanding ++ [t] := by
      rw [← hdrop]
      exact ht
    rcases List.mem_append.1 ht with ht | ht
    · exact h.origin t' ht
    · rw [List.mem_singleton.1 ht]
      exact horigin
  · exact h.delivered.trans (by rw [← List.take_append_of_le_length h.fetched]; rfl)
  · exact h.fetched.trans (by simp [Df.commit, Slots.goOn])

/-- A refusal is written where nothing undelivered lies, and says nothing of a request. -/
theorem Accounted.postRefusal (h : Accounted s) (i : ℕ) (dnum : ℤ) (msg : String)
    (hfree : s.full = false) : Accounted (postRefusal i dnum msg s) := by
  have hunposted : ∀ j, s.asking j ≠ .posting := fun j hj => by
    simpa [hfree] using (h.posting j hj).1
  have hstill : s.pumping ≠ .filled ∧ s.pumping ≠ .reading := by
    constructor <;> intro hp <;> simpa [hfree] using h.moving (by simp [hp])
  have honly : ∀ j, (Df.postRefusal i dnum msg s).asking j = .posting → j = i := by
    intro j hj
    by_contra hji
    exact hunposted j ((Function.update_of_ne hji ..).symm.trans hj)
  refine { h with
    delivered := ?_
    replaced := by simp [Df.postRefusal, Slots.goOn, h.replaced, hfree]
    slot := fun j t hj => h.slot j t (asking_of_goOn hj (by simp)).2
    alone := fun j k t t' hj hk => h.alone j k t t' (asking_of_goOn hj (by simp)).2
      (asking_of_goOn hk (by simp)).2
    moving := fun _ => rfl
    flag := fun _ => ⟨rfl, hstill⟩
    posting := fun j _ => ⟨rfl, ?_, hstill⟩
    poster := fun j k hj hk => (honly j hj).trans (honly k hk).symm
    hand := fun _ => Or.inr (Or.inr (Or.inr rfl)) }
  · have hdelivered := h.delivered
    rw [Slots.undelivered, hfree, if_neg (by simp), List.append_nil] at hdelivered
    rw [identities_append]
    exact (List.append_nil _).trans hdelivered
  · refine Bool.eq_false_iff.2 fun hp => ?_
    simpa [hfree] using (h.flag hp).1

/-- The flag takes over what a refusal has written. -/
theorem Accounted.post (h : Accounted s) {i : ℕ} (hi : s.asking i = .posting) :
    Accounted (post i s) := by
  obtain ⟨hfull, -, hstill⟩ := h.posting i hi
  have hnone : ∀ j, (Df.post i s).asking j ≠ .posting := by
    intro j hj
    obtain ⟨hne, hother⟩ := asking_of_goOn hj (by simp)
    exact hne (h.poster j i hother hi)
  exact { h with
    slot := fun j t hj => h.slot j t (asking_of_goOn hj (by simp)).2
    alone := fun j k t t' hj hk => h.alone j k t t' (asking_of_goOn hj (by simp)).2
      (asking_of_goOn hk (by simp)).2
    flag := fun _ => ⟨hfull, hstill⟩
    posting := fun j hj => absurd hj (hnone j)
    poster := fun j k hj => absurd hj (hnone j)
    hand := fun _ => Or.inl rfl }

/-- An orderly access of a thread that asks keeps the accounts. -/
theorem Accounted.askNext (h : Accounted s) (i : ℕ) (e : AskEvent) (hok : AskOrderly i e s) :
    Accounted (askNext i e s) := by
  unfold AskOrderly at hok
  unfold Df.askNext
  cases e with
  | ask dnum from_auto o =>
    cases ha : s.asking i with
    | idle => simp only [ha] at hok; exact h.ask i dnum from_auto o hok
    | _ => exact h
  | checkArmed calibrating =>
    cases ha : s.asking i with
    | asked t => exact h.checkArmed i calibrating t
    | _ => exact h
  | checkFree running =>
    cases ha : s.asking i with
    | submitting t => exact h.checkFree i running t
    | _ => exact h
  | writeReq =>
    cases ha : s.asking i with
    | writing t => simp only [ha] at hok; exact h.writeReq i t hok.1 hok.2.1 hok.2.2
    | _ => exact h
  | commit =>
    cases ha : s.asking i with
    | written t => simp only [ha] at hok; exact h.commit ha hok
    | _ => exact h
  | postRefusal =>
    cases ha : s.asking i with
    | refusing dnum msg => simp only [ha] at hok; exact h.postRefusal i dnum msg hok
    | _ => exact h
  | post =>
    cases ha : s.asking i with
    | posting => exact h.post ha
    | _ => exact h

/-! ### The main loop -/

/-- The main loop goes on without the result that lies in `pending_df_result`, and nothing in flight
is lost. -/
theorem Accounted.goTo (h : Accounted s) {p : Pumping}
    (hbefore : s.pumping ≠ .filled ∧ s.pumping ≠ .reading)
    (hafter : p ≠ .fetching ∧ p ≠ .filled ∧ p ≠ .reading)
    (hflight : s.inFlight = { s with pumping := p }.inFlight) : Accounted { s with pumping := p } :=
  { h with
    flight := h.flight.trans hflight
    apart := fun hm => ⟨(h.apart hm).1, hafter.1⟩
    once := fun hf => absurd hf hafter.1
    moving := fun hf => (hf.elim hafter.2.1 hafter.2.2).elim
    flag := fun hp => ⟨(h.flag hp).1, hafter.2⟩
    posting := fun j hj => ⟨(h.posting j hj).1, (h.posting j hj).2.1, hafter.2⟩
    hand := fun hfull => (h.hand hfull).imp_right fun hand =>
      Or.inr (Or.inr ((hand.resolve_left hbefore.1).resolve_left hbefore.2)) }

/-- `df_pump` looks at `pending`. -/
theorem Accounted.pump (h : Accounted s) (running : Bool) (hidle : s.pumping = .idle) :
    Accounted (pump running s) := by
  unfold Df.pump
  split_ifs with hstop
  · exact h
  · exact h.goTo (by simp [hidle]) (by simp) (by simp [hidle])

/-- `poll` takes the result that is marked as ready, or there is none. -/
theorem Accounted.poll (h : Accounted s) (hlooked : s.pumping = .looked) : Accounted (poll s) := by
  unfold Df.poll
  split_ifs with hready
  · refine { h with
      flight := h.flight.trans (by simp [hlooked, hready])
      apart := fun hm => ?_
      once := fun _ => rfl
      moving := fun hf => by simp at hf
      flag := fun hp => ⟨(h.flag hp).1, by simp⟩
      posting := fun j hj => ⟨(h.posting j hj).1, (h.posting j hj).2.1, by simp⟩
      hand := fun hfull => by simpa [hlooked] using h.hand hfull }
    have hapart := (h.apart hm).1
    rw [hready] at hapart
    exact Bool.noConfusion hapart
  · exact h.goTo (by simp [hlooked]) (by simp) (by simp [hlooked])

/-- `poll` copies the result, and the slot has none then. -/
theorem Accounted.fetch (h : Accounted s) (hfetching : s.pumping = .fetching) :
    Accounted (fetch s) := by
  have hready := h.once hfetching
  have hmeasuring : s.measuring ≠ .published := fun hm => (h.apart hm).2 hfetching
  exact h.goTo (by simp [hfetching]) (by simp) (by simp [hfetching, hready, hmeasuring])

/-- `df_pump` moves the result, of the first request in flight, and this from where all come that are
outstanding. -/
theorem Accounted.fill (h : Accounted s) {t : Ticket} {ok : Bool} (hholding : s.pumping = .holding t ok)
    (hfree : s.full = false) : Accounted (fill t ok s) := by
  have hfirst : s.outstanding =
      t :: (s.inRes ++ s.inEngine ++ if s.req_pending then [s.req] else []) := by
    rw [h.flight]
    simp [hholding]
  have hlt : s.fetched < s.accepted.length := by
    refine Nat.lt_of_not_le fun hle => ?_
    rw [Slots.outstanding, List.drop_eq_nil_of_le hle] at hfirst
    cases hfirst
  have hget : s.accepted[s.fetched] = t ∧ s.accepted.drop (s.fetched + 1) =
      s.inRes ++ s.inEngine ++ if s.req_pending then [s.req] else [] := by
    rw [Slots.outstanding, List.drop_eq_getElem_cons hlt] at hfirst
    exact List.cons.inj hfirst
  refine { h with
    flight := hget.2.trans ?_
    origin := fun t' ht => h.origin t' ?_
    delivered := ?_
    fetched := hlt
    apart := fun hm => ⟨(h.apart hm).1, by simp [Df.fill]⟩
    once := fun hf => by simp [Df.fill] at hf
    moving := fun _ => rfl
    flag := fun hp => ?_
    posting := fun j hj => ?_
    hand := fun _ => Or.inr (Or.inl rfl) }
  · simp [Df.fill, hholding]
    rfl
  · rw [hfirst, ← hget.2]
    exact List.mem_cons_of_mem _ ht
  · have hdelivered := h.delivered
    rw [Slots.undelivered, hfree, if_neg (by simp), List.append_nil] at hdelivered
    have horigin : t.from_auto = s.df_req_auto := h.origin t (by rw [hfirst]; exact List.mem_cons_self)
    have htake : s.accepted.take (s.fetched + 1) = s.accepted.take s.fetched ++ [t] := by
      rw [List.take_add_one, List.getElem?_eq_getElem hlt, hget.1]
      rfl
    refine (identities_append ..).trans ?_
    refine Eq.trans ?_ (congrArg (List.map PendingDFResult.of) htake).symm
    rw [List.map_append, ← hdelivered, List.map_singleton, PendingDFResult.of, horigin]
    rfl
  · simpa [hfree] using (h.flag hp).1
  · simpa [hfree] using (h.posting j hj).1

/-- The flag takes over what `df_pump` has written. -/
theorem Accounted.handOver (h : Accounted s) (hfilled : s.pumping = .filled) :
    Accounted (handOver s) := by
  refine { h with
    flight := h.flight.trans ?_
    apart := fun hm => ⟨(h.apart hm).1, by simp [Df.handOver]⟩
    once := fun hf => by simp [Df.handOver] at hf
    moving := fun hf => by simp [Df.handOver] at hf
    flag := fun _ => ⟨h.moving (Or.inl hfilled), by simp [Df.handOver]⟩
    posting := fun j hj => absurd hfilled (h.posting j hj).2.2.1
    hand := fun _ => Or.inl rfl }
  simp [Df.handOver, hfilled]
  rfl

/-- The drain takes over what the flag had. -/
theorem Accounted.drain (h : Accounted s) (hidle : s.pumping = .idle) : Accounted (drain s) := by
  unfold Df.drain
  split_ifs with hpending
  · refine { h with
      flight := h.flight.trans ?_
      apart := fun hm => ⟨(h.apart hm).1, by simp⟩
      once := fun hf => by simp at hf
      moving := fun _ => (h.flag hpending).1
      flag := fun hp => by simp at hp
      posting := fun j hj => ?_
      hand := fun _ => Or.inr (Or.inr (Or.inl rfl)) }
    · simp [hidle]
    · have hposting := (h.posting j hj).2.1
      rw [hpending] at hposting
      exact Bool.noConfusion hposting
  · exact h

/-- The drain delivers what is undelivered. -/
theorem Accounted.read (h : Accounted s) (hreading : s.pumping = .reading) : Accounted (read s) := by
  have hfull := h.moving (Or.inr hreading)
  refine { h with
    flight := h.flight.trans ?_
    delivered := ?_
    apart := fun hm => ⟨(h.apart hm).1, by simp [Df.read]⟩
    once := fun hf => by simp [Df.read] at hf
    moving := fun hf => by simp [Df.read] at hf
    flag := fun hp => absurd hreading (h.flag hp).2.2
    posting := fun j hj => absurd hreading (h.posting j hj).2.2.2
    hand := fun hfull => by simp [Df.read] at hfull }
  · simp [Df.read, hreading]
    rfl
  · have hdelivered := h.delivered
    rw [Slots.undelivered, hfull, if_pos rfl] at hdelivered
    exact (congrArg identities (List.append_nil _)).trans hdelivered

/-- An orderly access of the main loop keeps the accounts. -/
theorem Accounted.pumpNext (h : Accounted s) (e : PumpEvent) (hok : Orderly s (.pumping e)) :
    Accounted (pumpNext e s) := by
  unfold Orderly at hok
  unfold Df.pumpNext
  cases e with
  | pump running =>
    cases hp : s.pumping with
    | idle => exact h.pump running hp
    | _ => exact h
  | poll =>
    cases hp : s.pumping with
    | looked => exact h.poll hp
    | _ => exact h
  | fetch =>
    cases hp : s.pumping with
    | fetching => exact h.fetch hp
    | _ => exact h
  | fill =>
    cases hp : s.pumping with
    | holding t ok => simp only [hp] at hok; exact h.fill hp hok
    | _ => exact h
  | handOver =>
    cases hp : s.pumping with
    | filled => exact h.handOver hp
    | _ => exact h
  | drain =>
    cases hp : s.pumping with
    | idle => exact h.drain hp
    | _ => exact h
  | read =>
    cases hp : s.pumping with
    | reading => exact h.read hp
    | _ => exact h

/-! ### The measuring thread -/

/-- The measuring thread takes the request in the slot. -/
theorem Accounted.take (h : Accounted s) (hidle : s.measuring = .idle) (hfull : s.req_pending = true) :
    Accounted { s with req_pending := false, measuring := .taken } := by
  refine { h with
    flight := h.flight.trans ?_
    slot := fun i t ht => ?_
    apart := fun hm => by simp at hm }
  · simp [hidle, hfull]
  · have hempty := (h.slot i t ht).1
    rw [hfull] at hempty
    exact Bool.noConfusion hempty

/-- It copies it, before anybody has filled the slot again. -/
theorem Accounted.copy (h : Accounted s) (htaken : s.measuring = .taken) :
    Accounted { s with cur := s.req, measuring := .copied } := by
  refine { h with
    flight := h.flight.trans ?_
    slot := fun i t ht => absurd htaken (h.slot i t ht).2.2
    apart := fun hm => by simp at hm }
  simp [htaken]

/-- It arms. -/
theorem Accounted.arm (h : Accounted s) (hcopied : s.measuring = .copied) :
    Accounted { s with is_armed := true, measuring := .armed } := by
  refine { h with
    flight := h.flight.trans ?_
    slot := fun i t ht => ⟨(h.slot i t ht).1, (h.slot i t ht).2.1, by simp⟩
    apart := fun hm => by simp at hm }
  simp [hcopied]

/-- It writes its result into a slot that has none. -/
theorem Accounted.publish (h : Accounted s) (ok : Bool)
    (hmeasuring : s.measuring = .copied ∨ s.measuring = .armed) (hready : s.res_ready = false)
    (hpump : s.pumping ≠ .fetching) :
    Accounted { s with res := s.cur, res_ok := ok, measuring := .published } := by
  refine { h with
    flight := h.flight.trans ?_
    slot := fun i t ht => ⟨(h.slot i t ht).1, (h.slot i t ht).2.1, by simp⟩
    apart := fun _ => ⟨hready, hpump⟩ }
  rcases hmeasuring with hm | hm <;>
    simp [hm, hready, hpump]

/-- It marks its result as ready. -/
theorem Accounted.markReady (h : Accounted s) (hpublished : s.measuring = .published) :
    Accounted { s with res_ready := true, measuring := .ready } := by
  refine { h with
    flight := h.flight.trans ?_
    slot := fun i t ht => ⟨(h.slot i t ht).1, (h.slot i t ht).2.1, by simp⟩
    apart := fun hm => by simp at hm
    once := fun hf => absurd hf (h.apart hpublished).2 }
  simp [hpublished]

/-- It is no longer armed. -/
theorem Accounted.disarm (h : Accounted s) (hready : s.measuring = .ready) :
    Accounted { s with is_armed := false, measuring := .idle } := by
  refine { h with
    flight := h.flight.trans ?_
    slot := fun i t ht => ⟨(h.slot i t ht).1, (h.slot i t ht).2.1, by simp⟩
    apart := fun hm => by simp at hm }
  simp [hready]

/-- An orderly access of the measuring thread keeps the accounts. -/
theorem Accounted.measureNext (h : Accounted s) (e : MeasureEvent) (hok : Orderly s (.measuring e)) :
    Accounted (measureNext e s) := by
  unfold Orderly at hok
  unfold Df.measureNext
  cases e with
  | cancel => exact { h with }
  | take =>
    cases hm : s.measuring with
    | idle =>
      dsimp only
      split_ifs with hfull
      · exact h.take hm hfull
      · exact h
    | _ => exact h
  | copy =>
    cases hm : s.measuring with
    | taken => exact h.copy hm
    | _ => exact h
  | arm =>
    cases hm : s.measuring with
    | copied => exact h.arm hm
    | _ => exact h
  | publish ok =>
    cases hm : s.measuring with
    | copied => simp only [hm] at hok; exact h.publish ok (Or.inl hm) hok.1 hok.2
    | armed => simp only [hm] at hok; exact h.publish ok (Or.inr hm) hok.1 hok.2
    | _ => exact h
  | markReady =>
    cases hm : s.measuring with
    | published => exact h.markReady hm
    | _ => exact h
  | disarm =>
    cases hm : s.measuring with
    | ready => exact h.disarm hm
    | _ => exact h

/-! ## Runs -/

/-- An orderly access of any thread keeps the accounts. -/
theorem Accounted.next (h : Accounted s) (e : SlotEvent) (hok : Orderly s e) :
    Accounted (s.next e) := by
  cases e with
  | asking i e => exact h.askNext i e hok
  | pumping e => exact h.pumpNext e hok
  | measuring e => exact h.measureNext e hok

/-- The state after a run. -/
def slotsAfter (events : List SlotEvent) : Slots := events.foldl Slots.next .start

/-- No request is pending or measuring, and no result waits or is being moved or drained. -/
structure Quiet (s : Slots) : Prop where
  req_pending : s.req_pending = false
  measuring : s.measuring = .idle
  res_ready : s.res_ready = false
  pumping : s.pumping = .idle ∨ s.pumping = .looked
  pending : s.pending = false

/-- As many results were drained as requests were accepted, each with the number, the channel and the
origin of its own request, and no refusal took the place of something undelivered. -/
structure Answered (s : Slots) : Prop where
  identities : identities s.drained = s.accepted.map PendingDFResult.of
  replaced : s.replaced = false

/-- In a quiet state nothing is in flight, and what is undelivered, if anything, is a refusal. -/
theorem Accounted.answered (h : Accounted s) (hquiet : Quiet s) : Answered s := by
  have hpump : ∀ p, p ≠ .idle → p ≠ .looked → s.pumping ≠ p := by
    rintro p hidle hlooked rfl
    exact hquiet.pumping.elim hidle hlooked
  have hflight : s.inFlight = [] := by
    rcases hquiet.pumping with hp | hp <;>
      simp [hquiet.measuring, hquiet.res_ready, hquiet.req_pending, hp]
  have hfetched : s.accepted.take s.fetched = s.accepted :=
    List.take_of_length_le (List.drop_eq_nil_iff.1 (h.flight.trans hflight))
  have hundelivered : Df.identities s.undelivered = [] := by
    unfold Slots.undelivered
    split_ifs with hfull
    · rcases h.hand hfull with hp | hp | hp | hp
      · simp [hquiet.pending] at hp
      · exact absurd hp (hpump _ (by simp) (by simp))
      · exact absurd hp (hpump _ (by simp) (by simp))
      · simp [Df.identities, Option.ne_none_iff_isSome.2 hp]
    · rfl
  have hdelivered := h.delivered
  rw [identities_append, hundelivered, List.append_nil, hfetched] at hdelivered
  exact ⟨hdelivered, h.replaced⟩

/-- Runs. Where every access is orderly, every quiet state has each accepted request answered once and
under its own identity. -/
theorem answered_of_run (events : List SlotEvent)
    (hok : ∀ es e, es ++ [e] <+: events → Orderly (slotsAfter es) e) :
    ∀ es, es <+: events → Quiet (slotsAfter es) → Answered (slotsAfter es) := by
  intro es hes hquiet
  have hall := Lib.forall_prefix_foldl
    (fun s e (h : Accounted s) (hok : Orderly s e) => h.next e hok) accounted_start hok
  exact (hall es hes).answered hquiet

/-- A channel that nothing is to be said against. -/
def clearOutlook : Outlook where
  kraken := true
  running := true
  arr := some 2
  zero_bw := false
  out_of_band := none

/-- A request of thread 0, for the operator, that is accepted. -/
def acceptedRequest : List SlotEvent :=
  [.asking 0 (.ask 1 false clearOutlook), .asking 0 (.checkArmed none), .asking 0 (.checkFree true),
   .asking 0 .writeReq, .asking 0 .commit]

/-- The measuring thread picks it up. -/
def pickedUp : List SlotEvent :=
  [.measuring .take, .measuring .copy, .measuring .arm]

/-- Thread 1 asks meanwhile, from AUTO DF or not, and is refused. -/
def refusedCall (from_auto : Bool) : List SlotEvent :=
  [.asking 1 (.ask 2 from_auto clearOutlook), .asking 1 (.checkArmed none), .asking 1 .postRefusal,
   .asking 1 .post]

/-- The main loop drains. -/
def drained : List SlotEvent := [.pumping .drain, .pumping .read]

/-- The measuring thread publishes a result, and the main loop moves it. -/
def answered : List SlotEvent :=
  [.measuring (.publish true), .measuring .markReady, .measuring .disarm, .pumping (.pump true),
   .pumping .poll, .pumping .fetch, .pumping .fill, .pumping .handOver]

/-- While the request of the operator is measured, another thread asks for another channel and is
refused, and the refusal is drained; then the result comes. -/
def refusedBetween (from_auto : Bool) : List SlotEvent :=
  acceptedRequest ++ pickedUp ++ refusedCall from_auto ++ drained ++ answered ++ drained

/-- Where the other thread asks for the operator as well, the result is one of the operator. -/
theorem answered_of_run_accepted : Answered (slotsAfter (refusedBetween false)) := by
  refine answered_of_run (refusedBetween false) ?_ _ List.prefix_rfl ⟨rfl, rfl, rfl, Or.inl rfl, rfl⟩
  have hnone : ∀ j t, (slotsAfter (acceptedRequest.take 3)).asking j ≠ .written t := by
    rintro (_ | j) t hj
    · exact Asking.noConfusion hj
    · exact Asking.noConfusion hj
  refine Lib.forall_prefix_cons (List.forall_mem_nil _) (Lib.forall_prefix_cons trivial
    (Lib.forall_prefix_cons trivial (Lib.forall_prefix_cons ⟨rfl, by decide, hnone⟩
    (Lib.forall_prefix_cons rfl (Lib.forall_prefix_cons trivial (Lib.forall_prefix_cons trivial
    (Lib.forall_prefix_cons trivial (Lib.forall_prefix_cons (List.forall_mem_singleton.2 rfl)
    (Lib.forall_prefix_cons trivial (Lib.forall_prefix_cons rfl (Lib.forall_prefix_cons trivial
    (Lib.forall_prefix_cons trivial (Lib.forall_prefix_cons trivial
    (Lib.forall_prefix_cons ⟨rfl, by decide⟩ (Lib.forall_prefix_cons trivial
    (Lib.forall_prefix_cons trivial (Lib.forall_prefix_cons trivial (Lib.forall_prefix_cons trivial
    (Lib.forall_prefix_cons trivial (Lib.forall_prefix_cons rfl (Lib.forall_prefix_cons trivial
    (Lib.forall_prefix_cons trivial (Lib.forall_prefix_cons trivial
    Lib.forall_prefix_nil)))))))))))))))))))))))

/-! ## A refusal in between -/

/-- Where it asks for AUTO DF, the result of the operator is drained as one of AUTO DF. -/
theorem not_answered_of_refusal :
    ¬∀ events, Quiet (slotsAfter events) → Answered (slotsAfter events) := by
  intro h
  have hanswered := (h (refusedBetween true) ⟨rfl, rfl, rfl, Or.inl rfl, rfl⟩).identities
  have hdrained : identities (slotsAfter (refusedBetween true)).drained = [(1, 2, true)] := by decide
  have haccepted : (slotsAfter (refusedBetween true)).accepted.map PendingDFResult.of =
      [(1, 2, false)] := by
    decide
  rw [hdrained, haccepted] at hanswered
  simp at hanswered

end Bewe.Df
