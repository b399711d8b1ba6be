import Bewe.Lib.Run
import Bewe.Text

/-!
# History streams on JOIN

JOIN asks Central for three kinds of history: today's with a subscription, one vessel's, and an
archived day's. Each answer is META, chunks and DONE; only META says what kind of stream it is, so
`bewe_mod_route` keeps a flag and a buffer for each kind and gives chunks and DONE to the first kind
whose flag is set. The user can take back a request at any time, and a new connection
(`bewe_mod_set_my_station`) cuts what is being received.

`HistFw` is the part of `ModFw`, the framework's state of one module, that this concerns, and
`Session` adds Central's side of the connection: the requests to be answered, and the stream that is
being sent, of which the session remembers what was delivered, whether its META was accepted and
whether the user has taken it back since (`live`). `delivered_of_run` says that the streams that
JOIN dispatches are the live ones, each with its own chunks, and that nothing stays buffered behind
a subscription that has been answered, in every run in which no vessel's stream is cut by a new
connection and no subscription is made while the skip mark of an earlier one stands.

Decompression and the log of the module are left out: a dispatch has the bytes as they were received.
-/

namespace Bewe.ModulePipe

open Lib

/-- The values of `stream_kind`: today's history of a subscription, one vessel's, an archived
day. -/
inductive StreamKind
  | today
  | vessel
  | archive
  deriving DecidableEq

/-- The fields of `ModFw` that the history streams use. -/
structure HistFw where
  recv : Bool
  hist_loading : Bool
  hist_started : Bool
  hist_buf : Bytes
  hist_raw : ℕ
  live_pending : List Bytes
  vhist_active : Bool
  vhist_buf : Bytes
  vhist_raw : ℕ
  hist_mode : Bool
  hist2_fetching : Bool
  hist2_active : Bool
  hist2_buf : Bytes
  hist2_raw : ℕ
  hist2_gen : ℕ
  hist_resub_skip : Bool
  deriving DecidableEq

/-- A stream handed on at its DONE: its kind, the size before compression, the bytes received, and
whether the history is left out because the log was restored. -/
structure Dispatch where
  kind : StreamKind
  raw : ℕ
  bytes : Bytes
  skip_hist : Bool
  deriving DecidableEq

namespace HistFw

/-! ## What the user does -/

/-- `bewe_mod_set_recv`, apart from the request. -/
def setRecv (f : HistFw) (on : Bool) : HistFw :=
  if on then
    { f with recv := true, hist_loading := true, hist_started := false, hist_buf := [],
             live_pending := [] }
  else
    { f with recv := false, hist_loading := false, hist_started := false, hist_buf := [],
             live_pending := [] }

/-- The request could not be sent: there is nothing to wait for. -/
def setRecvFailed (f : HistFw) : HistFw :=
  { f with hist_loading := false }

/-- `bewe_mod_hist_fetch`, when a subscription has been ended and before the request. -/
def histFetch (f : HistFw) : HistFw :=
  { f with hist_mode := true, hist2_gen := (f.hist2_gen + 1) % 2 ^ 32, hist2_fetching := true,
           hist2_active := false, hist2_buf := [], hist2_raw := 0 }

/-- `bewe_mod_hist_exit`, up to the new subscription. -/
def histExit (f : HistFw) : HistFw :=
  { f with hist_mode := false, hist2_gen := (f.hist2_gen + 1) % 2 ^ 32, hist2_fetching := false,
           hist2_active := false, hist2_buf := [], hist2_raw := 0, hist_resub_skip := true }

/-- `bewe_mod_set_my_station`. -/
def setMyStation (f : HistFw) : HistFw :=
  { f with recv := false, hist_loading := false, hist_started := false, hist_buf := [],
           live_pending := [], hist_mode := false, hist2_fetching := false, hist2_active := false,
           hist2_buf := [], hist2_raw := 0, hist_resub_skip := false }

/-! ## What arrives -/

/-- A live record: it waits while a history is loading, and is handed on otherwise. -/
def onData (f : HistFw) (rec : Bytes) : HistFw × List Bytes :=
  if f.hist_loading then ({ f with live_pending := f.live_pending ++ [rec] }, []) else (f, [rec])

/-- Whether META of a stream is accepted. -/
def accepts (f : HistFw) : StreamKind → ℕ → Bool
  | .vessel, _ => true
  | .archive, req_id => f.hist_mode && decide (req_id = f.hist2_gen)
  | .today, _ => f.hist_loading

/-- `BEWE_MK_HIST_META`. -/
def onMeta (f : HistFw) (kind : StreamKind) (raw req_id : ℕ) : HistFw :=
  if f.accepts kind req_id then
    match kind with
    | .vessel => { f with vhist_active := true, vhist_raw := raw, vhist_buf := [] }
    | .archive => { f with hist2_active := true, hist2_raw := raw, hist2_buf := [] }
    | .today => { f with hist_raw := raw, hist_buf := [], hist_started := true }
  else f

/-- `BEWE_MK_HIST_CHUNK`. -/
def onChunk (f : HistFw) (bytes : Bytes) : HistFw :=
  if f.hist2_active then { f with hist2_buf := f.hist2_buf ++ bytes }
  else if f.vhist_active then { f with vhist_buf := f.vhist_buf ++ bytes }
  else if f.hist_loading && f.hist_started then { f with hist_buf := f.hist_buf ++ bytes }
  else f

/-- `BEWE_MK_HIST_DONE`: the stream handed on, if any, and the live records that waited for it. -/
def onDone (f : HistFw) : HistFw × Option Dispatch × List Bytes :=
  if f.hist2_active then
    ({ f with hist2_active := false, hist2_raw := 0, hist2_fetching := false, hist2_buf := [] },
      some ⟨.archive, f.hist2_raw, f.hist2_buf, false⟩, [])
  else if f.vhist_active then
    ({ f with vhist_active := false, vhist_raw := 0, vhist_buf := [] },
      some ⟨.vessel, f.vhist_raw, f.vhist_buf, false⟩, [])
  else if f.hist_loading && f.hist_started then
    ({ f with hist_loading := false, hist_started := false, hist_raw := 0, hist_buf := [],
              live_pending := [], hist_resub_skip := false },
      some ⟨.today, f.hist_raw, f.hist_buf, f.hist_resub_skip⟩, f.live_pending)
  else (f, none, [])

end HistFw

/-! ## The connection -/

/-- A request on its way to Central; a subscription has a number. -/
structure HistRequest where
  kind : StreamKind
  req_id : ℕ
  sub : ℕ
  deriving DecidableEq

/-- The stream that Central is sending: its META, the bytes delivered, and whether it was accepted
and not taken back since. -/
structure HistStream where
  kind : StreamKind
  raw : ℕ
  sub : ℕ
  got : Bytes
  live : Bool
  deriving DecidableEq

/-- JOIN's module and its connection. `dispatched` are the streams handed on, each with whether the
last subscription was made on leaving an archived day; `completed` the live streams whose DONE has
arrived; `records` the live records handed on; `subs` counts the subscriptions, and since the last
one, or the end of it, the live records `since` have arrived, when `before` had been handed on. -/
structure Session where
  fw : HistFw
  requests : List HistRequest
  cur : Option HistStream
  dispatched : List (Dispatch × Bool)
  completed : List (StreamKind × ℕ × Bytes)
  records : List Bytes
  subs : ℕ
  byExit : Bool
  before : ℕ
  since : List Bytes

/-- What can happen: the user's actions, with whether the request can be sent, a new connection, a
live record, and Central's next packet. -/
inductive HistEvent
  | setRecv (on sent : Bool)
  | reqVessel (sent : Bool)
  | histFetch (sent : Bool)
  | histExit (sent : Bool)
  | reconnect
  | data (rec : Bytes)
  | begin (raw : ℕ)
  | chunk (bytes : Bytes)
  | done

namespace Session

/-- A request is sent. -/
def request (s : Session) (r : HistRequest) (sent : Bool) : Session :=
  if sent then { s with requests := s.requests ++ [r] } else s

/-- The user takes back what is being received of some kinds. -/
def takeBack (s : Session) (kinds : StreamKind → Bool) : Session :=
  { s with cur := s.cur.map fun st => { st with live := st.live && !kinds st.kind } }

/-- A subscription is made or ended. -/
def subscribe (s : Session) (on sent byExit : Bool) : Session :=
  let s := { (s.takeBack fun k => decide (k = StreamKind.today)) with
             before := s.records.length, since := [] }
  if on then
    let s := { s with fw := s.fw.setRecv true, subs := s.subs + 1, byExit := byExit }
    if sent then s.request ⟨.today, 0, s.subs⟩ true else { s with fw := s.fw.setRecvFailed }
  else { s with fw := s.fw.setRecv false }

end Session

/-- Whether the event can happen: Central answers one request after the other. -/
def HistEvent.enabled : HistEvent → Session → Bool
  | .begin _, s => s.cur.isNone && !s.requests.isEmpty
  | .chunk _, s | .done, s => s.cur.isSome
  | _, _ => true

/-- What an event does. -/
def HistEvent.apply : HistEvent → Session → Session
  | .setRecv on sent, s => s.subscribe on sent false
  | .reqVessel sent, s => s.request ⟨.vessel, 0, 0⟩ sent
  | .histFetch sent, s =>
    let s := if s.fw.recv then s.subscribe false sent s.byExit else s
    let s := { (s.takeBack fun k => decide (k = StreamKind.archive)) with fw := s.fw.histFetch }
    if sent then s.request ⟨.archive, s.fw.hist2_gen, 0⟩ true
    else { s with fw := { s.fw with hist2_fetching := false } }
  | .histExit sent, s =>
    if s.fw.hist_mode then
      { (s.takeBack fun k => decide (k = StreamKind.archive)) with fw := s.fw.histExit }.subscribe
        true sent true
    else s
  | .reconnect, s =>
    { s with fw := s.fw.setMyStation, requests := [], cur := none
             before := s.records.length, since := [] }
  | .data rec, s =>
    let (fw, out) := s.fw.onData rec
    { s with fw := fw, records := s.records ++ out, since := s.since ++ [rec] }
  | .begin raw, s =>
    match s.requests with
    | r :: rs =>
      { s with fw := s.fw.onMeta r.kind raw r.req_id, requests := rs
               cur := some ⟨r.kind, raw, r.sub, [], s.fw.accepts r.kind r.req_id⟩ }
    | [] => s
  | .chunk bytes, s =>
    { s with fw := s.fw.onChunk bytes, cur := s.cur.map fun st => { st with got := st.got ++ bytes } }
  | .done, s =>
    let (fw, d, out) := s.fw.onDone
    { s with
      fw := fw
      cur := none
      dispatched := s.dispatched ++ (d.map fun d => (d, s.byExit)).toList
      completed := s.completed ++ (s.cur.bind fun st =>
        if st.live then some (st.kind, st.raw, st.got) else none).toList
      records := s.records ++ out }

/-- One step of the session. -/
def HistStep (s : Session) (e : HistEvent) (s' : Session) : Prop :=
  e.enabled s = true ∧ s' = e.apply s

/-! ## Which stream is being received -/

/-- Central is sending a live stream of the kind. -/
def Session.feeds (s : Session) (kind : StreamKind) : Bool :=
  s.cur.any fun st => st.live && decide (st.kind = kind)

/-- What JOIN holds of a stream of a kind: the size announced and the bytes. -/
def HistFw.buffer (f : HistFw) : StreamKind → ℕ × Bytes
  | .today => (f.hist_raw, f.hist_buf)
  | .vessel => (f.vhist_raw, f.vhist_buf)
  | .archive => (f.hist2_raw, f.hist2_buf)

/-- JOIN's flags say which live stream Central is sending, the buffer holds what was delivered of
it, and what waits for a history waits for the last subscription. -/
structure Sorted (s : Session) : Prop where
  vessel : s.fw.vhist_active = s.feeds .vessel
  archive : s.fw.hist2_active = s.feeds .archive
  today : s.fw.hist_started = s.feeds .today
  buffer : ∀ st, s.cur = some st → st.live = true → s.fw.buffer st.kind = (st.raw, st.got)
  loading : s.fw.hist_started = true → s.fw.hist_loading = true
  recv : s.fw.hist_loading = true → s.fw.recv = true
  pending : s.fw.hist_loading = false → s.fw.live_pending = []
  waiting : s.fw.hist_loading = true →
    (∃ r ∈ s.requests, r.kind = .today ∧ r.sub = s.subs) ∨
      ∃ st, s.cur = some st ∧ st.kind = .today ∧ st.sub = s.subs ∧ st.live = true
  dispatched : s.dispatched.map (fun p => (p.1.kind, p.1.raw, p.1.bytes)) = s.completed
  records : ∃ earlier, earlier.length = s.before ∧
    s.records ++ s.fw.live_pending = earlier ++ s.since

/-- A history is skipped, and marked to be, only behind the subscription made on leaving an archived
day. -/
structure Marked (s : Session) : Prop where
  skip : s.fw.hist_resub_skip = true → s.byExit = true
  skipped : ∀ p ∈ s.dispatched, p.1.skip_hist = true → p.2 = true

/-- The condition on a step: a new connection does not cut a vessel's stream, and the user makes no
subscription while the mark to skip a history stands. -/
def HistEvent.clear : HistEvent → Session → Bool
  | .reconnect, s => !s.fw.vhist_active
  | .setRecv on _, s => !(on && s.fw.hist_resub_skip)
  | _, _ => true

theorem sorted_chunk (s : Session) (bytes : Bytes) (h : Sorted s) (hcur : s.cur.isSome = true) :
    Sorted ((HistEvent.chunk bytes).apply s) := by
  obtain ⟨⟨kind, raw, sub, got, live⟩, hst⟩ := Option.isSome_iff_exists.mp hcur
  obtain ⟨f, requests, cur, dispatched, completed, records, subs, byExit, before, since⟩ := s
  simp only at hst
  subst hst
  obtain ⟨hv, ha, ht, hb, hl, hr, hp, hw, hd, hrec⟩ := h
  simp only [Session.feeds, Option.any_some] at hv ha ht
  simp only [HistEvent.apply, HistFw.onChunk, Option.map_some]
  -- by the kind of the stream, and whether it is live: the flags are those of that stream alone
  cases kind <;> cases live <;>
    simp_all [HistFw.buffer] <;> constructor <;> simp_all [Session.feeds, HistFw.buffer]

theorem sorted_begin (s : Session) (raw : ℕ) (h : Sorted s)
    (hen : (HistEvent.begin raw).enabled s = true) : Sorted ((HistEvent.begin raw).apply s) := by
  obtain ⟨f, requests, cur, dispatched, completed, records, subs, byExit, before, since⟩ := s
  obtain ⟨hv, ha, ht, hb, hl, hr, hp, hw, hd, hrec⟩ := h
  simp only [HistEvent.enabled, Bool.and_eq_true, Option.isNone_iff_eq_none] at hen
  obtain ⟨hcur, hreq⟩ := hen
  subst hcur
  simp only [Session.feeds, Option.any_none] at hv ha ht
  cases requests with
  | nil => simp at hreq
  | cons r rs =>
    obtain ⟨kind, req_id, sub⟩ := r
    simp only [HistEvent.apply, HistFw.onMeta]
    cases kind with
    | vessel =>
      constructor <;> simp_all [Session.feeds, HistFw.accepts, HistFw.buffer]
    | archive =>
      cases hacc : f.accepts .archive req_id <;>
        constructor <;> simp_all [Session.feeds, HistFw.buffer]
    | today =>
      -- the last subscription is waiting, so if it is the one answered it is accepted
      cases hacc : f.hist_loading with
      | false =>
        constructor <;> simp_all [Session.feeds, HistFw.accepts, HistFw.buffer]
      | true =>
        constructor <;> simp_all [Session.feeds, HistFw.accepts, HistFw.buffer]
        exact hw.symm

theorem sorted_done (s : Session) (h : Sorted s) (hcur : s.cur.isSome = true) :
    Sorted (HistEvent.done.apply s) := by
  obtain ⟨⟨kind, raw, sub, got, live⟩, hst⟩ := Option.isSome_iff_exists.mp hcur
  obtain ⟨f, requests, cur, dispatched, completed, records, subs, byExit, before, since⟩ := s
  simp only at hst
  subst hst
  obtain ⟨hv, ha, ht, hb, hl, hr, hp, hw, hd, hrec⟩ := h
  simp only [Session.feeds, Option.any_some] at hv ha ht
  simp only [HistEvent.apply, HistFw.onDone]
  cases kind <;> cases live <;>
    simp_all [HistFw.buffer] <;> constructor <;> simp_all [Session.feeds, HistFw.buffer]

theorem sorted_subscribe (s : Session) (on sent byExit : Bool) (h : Sorted s) :
    Sorted (s.subscribe on sent byExit) := by
  obtain ⟨f, requests, cur, dispatched, completed, records, subs, byExit', before, since⟩ := s
  obtain ⟨hv, ha, ht, hb, hl, hr, hp, hw, hd, hrec⟩ := h
  simp only [Session.subscribe, Session.takeBack, Session.request, HistFw.setRecv]
  cases cur with
  | none =>
    cases on <;> cases sent <;> simp_all [Session.feeds, HistFw.setRecvFailed] <;> constructor <;>
      simp_all [Session.feeds]
  | some st =>
    obtain ⟨kind, raw, sub, got, live⟩ := st
    simp only [Session.feeds, Option.any_some] at hv ha ht
    cases kind <;> cases live <;> cases on <;> cases sent <;>
      simp_all [HistFw.setRecvFailed, HistFw.buffer] <;> constructor <;>
        simp_all [Session.feeds, HistFw.buffer]

theorem sorted_dropArchive (s : Session) (h : Sorted s) (mode fetching skip : Bool) (gen : ℕ) :
    Sorted
      { (s.takeBack fun k => decide (k = StreamKind.archive)) with
        fw := { s.fw with hist_mode := mode, hist2_gen := gen, hist2_fetching := fetching,
                          hist2_active := false, hist2_buf := [], hist2_raw := 0,
                          hist_resub_skip := skip } } := by
  obtain ⟨f, requests, cur, dispatched, completed, records, subs, byExit, before, since⟩ := s
  obtain ⟨hv, ha, ht, hb, hl, hr, hp, hw, hd, hrec⟩ := h
  simp only [Session.takeBack]
  cases cur with
  | none => constructor <;> simp_all [Session.feeds]
  | some st =>
    obtain ⟨kind, raw, sub, got, live⟩ := st
    simp only [Session.feeds, Option.any_some] at hv ha ht
    cases kind <;> cases live <;>
      simp_all [HistFw.buffer] <;> constructor <;> simp_all [Session.feeds, HistFw.buffer]

theorem sorted_request (s : Session) (h : Sorted s) (r : HistRequest) (sent : Bool) :
    Sorted (s.request r sent) := by
  obtain ⟨hv, ha, ht, hb, hl, hr, hp, hw, hd, hrec⟩ := h
  cases sent with
  | false => exact ⟨hv, ha, ht, hb, hl, hr, hp, hw, hd, hrec⟩
  | true =>
    refine ⟨hv, ha, ht, hb, hl, hr, hp, fun hload => ?_, hd, hrec⟩
    rcases hw hload with ⟨r, hr, hsub⟩ | hcur
    · exact Or.inl ⟨r, List.mem_append_left _ hr, hsub⟩
    · exact Or.inr hcur

theorem sorted_step (s : Session) (e : HistEvent) (s' : Session) (hclear : e.clear s = true)
    (hstep : HistStep s e s') (h : Sorted s) : Sorted s' := by
  obtain ⟨hen, rfl⟩ := hstep
  cases e with
  | setRecv on sent => exact sorted_subscribe s on sent false h
  | reqVessel sent => exact sorted_request s h _ sent
  | histFetch sent =>
    have h₁ : Sorted (if s.fw.recv then s.subscribe false sent s.byExit else s) := by
      split
      · exact sorted_subscribe s false sent s.byExit h
      · exact h
    simp only [HistEvent.apply]
    generalize (if s.fw.recv then s.subscribe false sent s.byExit else s) = s₁ at h₁ ⊢
    have h₂ := fun fetching => sorted_dropArchive s₁ h₁ true fetching s₁.fw.hist_resub_skip
      ((s₁.fw.hist2_gen + 1) % 2 ^ 32)
    split
    · exact sorted_request _ (h₂ true) _ true
    · exact h₂ false
  | histExit sent =>
    simp only [HistEvent.apply]
    split
    · exact sorted_subscribe _ true sent true
        (sorted_dropArchive s h false false true ((s.fw.hist2_gen + 1) % 2 ^ 32))
    · exact h
  | reconnect =>
    obtain ⟨hv, ha, ht, hb, hl, hr, hp, hw, hd, hrec⟩ := h
    -- the flag of a vessel's stream is the one that the new connection does not clear
    have hno : s.fw.vhist_active = false := by simpa [HistEvent.clear] using hclear
    constructor <;> simp_all [HistEvent.apply, HistFw.setMyStation, Session.feeds]
  | data rec =>
    obtain ⟨hv, ha, ht, hb, hl, hr, hp, hw, hd, hrec⟩ := h
    obtain ⟨earlier, hbefore, hrec⟩ := hrec
    simp only [HistEvent.apply, HistFw.onData]
    split
    · rename_i hload
      refine ⟨hv, ha, ht, hb, hl, hr, fun hno => absurd (hload.symm.trans hno) (by simp), hw, hd,
        earlier, hbefore, ?_⟩
      simp only [List.append_nil, ← List.append_assoc, hrec]
    · -- nothing waits, so the record is the next one handed on
      rename_i hload
      refine ⟨hv, ha, ht, hb, hl, hr, hp, hw, hd, earlier, hbefore, ?_⟩
      rw [hp (by simpa using hload), List.append_nil] at hrec ⊢
      simp only [hrec, List.append_assoc]
  | begin raw => exact sorted_begin s raw h hen
  | chunk bytes => exact sorted_chunk s bytes h hen
  | done => exact sorted_done s h hen

theorem marked_step (s : Session) (e : HistEvent) (s' : Session) (hclear : e.clear s = true)
    (hstep : HistStep s e s') (h : Marked s) : Marked s' := by
  obtain ⟨-, rfl⟩ := hstep
  obtain ⟨hskip, hskipped⟩ := h
  -- what a subscription does to the mark
  have hsub : ∀ (t : Session) (on sent byExit : Bool), t.dispatched = s.dispatched →
      (on = true → t.fw.hist_resub_skip = true → byExit = true) →
      (on = false → t.fw.hist_resub_skip = true → t.byExit = true) →
      Marked (t.subscribe on sent byExit) := by
    intro t on sent byExit hd hon hoff
    unfold Session.subscribe Session.request Session.takeBack HistFw.setRecv HistFw.setRecvFailed
    cases on <;> cases sent <;>
      exact ⟨by first | exact hon rfl | exact hoff rfl, by simpa [hd] using hskipped⟩
  cases e with
  | setRecv on sent =>
    refine hsub s on sent false rfl (fun hon hs => ?_) fun _ => hskip
    simp [HistEvent.clear, hon, hs] at hclear
  | reqVessel sent => cases sent <;> exact ⟨hskip, hskipped⟩
  | histFetch sent =>
    have h₁ : Marked (if s.fw.recv then s.subscribe false sent s.byExit else s) := by
      split
      · exact hsub s false sent s.byExit rfl (fun hno => absurd hno (by simp)) fun _ => hskip
      · exact ⟨hskip, hskipped⟩
    simp only [HistEvent.apply]
    generalize (if s.fw.recv then s.subscribe false sent s.byExit else s) = s₁ at h₁ ⊢
    obtain ⟨h₁, h₂⟩ := h₁
    cases sent <;> exact ⟨h₁, h₂⟩
  | histExit sent =>
    simp only [HistEvent.apply]
    split
    · exact hsub _ true sent true rfl (fun _ _ => rfl) fun hno => absurd hno (by simp)
    · exact ⟨hskip, hskipped⟩
  | reconnect =>
    exact ⟨fun hno => absurd hno (by simp [HistEvent.apply, HistFw.setMyStation]), hskipped⟩
  | data rec =>
    simp only [HistEvent.apply, HistFw.onData]
    split <;> exact ⟨hskip, hskipped⟩
  | begin raw =>
    simp only [HistEvent.apply]
    split
    · refine ⟨fun hs => hskip ?_, hskipped⟩
      revert hs
      unfold HistFw.onMeta
      split
      · split <;> exact fun hs => hs
      · exact fun hs => hs
    · exact ⟨hskip, hskipped⟩
  | chunk bytes =>
    refine ⟨fun hs => hskip ?_, hskipped⟩
    revert hs
    simp only [HistEvent.apply, HistFw.onChunk]
    split
    · exact fun hs => hs
    · split
      · exact fun hs => hs
      · split <;> exact fun hs => hs
  | done =>
    -- a stream of another kind is never skipped
    have hunskipped : ∀ d : Dispatch, d.skip_hist = false →
        ∀ p ∈ s.dispatched ++ ((some d).map fun d => (d, s.byExit)).toList,
          p.1.skip_hist = true → p.2 = true := by
      intro d hd p hp hs
      simp only [Option.map_some, Option.toList_some, List.mem_append, List.mem_singleton] at hp
      rcases hp with hp | rfl
      · exact hskipped p hp hs
      · simp [hd] at hs
    simp only [HistEvent.apply, HistFw.onDone]
    split
    · exact ⟨hskip, hunskipped _ rfl⟩
    · split
      · exact ⟨hskip, hunskipped _ rfl⟩
      · split
        · refine ⟨fun hno => absurd hno (by simp), fun p hp => ?_⟩
          simp only [Option.map_some, Option.toList_some, List.mem_append, List.mem_singleton] at hp
          rcases hp with hp | rfl
          · exact hskipped p hp
          · exact hskip
        · exact ⟨hskip, by simpa using hskipped⟩

/-! ## Runs -/

/-- A module that has not been used. -/
def HistFw.start : HistFw where
  recv := false
  hist_loading := false
  hist_started := false
  hist_buf := []
  hist_raw := 0
  live_pending := []
  vhist_active := false
  vhist_buf := []
  vhist_raw := 0
  hist_mode := false
  hist2_fetching := false
  hist2_active := false
  hist2_buf := []
  hist2_raw := 0
  hist2_gen := 0
  hist_resub_skip := false

/-- The first connection. -/
def Session.start : Session where
  fw := HistFw.start
  requests := []
  cur := none
  dispatched := []
  completed := []
  records := []
  subs := 0
  byExit := false
  before := 0
  since := []

theorem sorted_start : Sorted Session.start := by
  constructor <;> simp [Session.start, HistFw.start, Session.feeds]

theorem marked_start : Marked Session.start := by
  constructor <;> simp [Session.start, HistFw.start]

/-- A step that meets the condition. -/
def ClearHistStep (s : Session) (e : HistEvent) (s' : Session) : Prop :=
  e.clear s = true ∧ HistStep s e s'

/-- The answer to the last subscription is still to come, or has not come whole. -/
def Session.answering (s : Session) : Prop :=
  (∃ r ∈ s.requests, r.kind = .today ∧ r.sub = s.subs) ∨
    ∃ st, s.cur = some st ∧ st.kind = .today ∧ st.sub = s.subs

/-- The streams handed on are those whose DONE arrived, each with its own size and bytes; a history
is left out only behind a subscription made on leaving an archived day; and when the last
subscription has been answered nothing is loading and every live record since has been handed on. -/
def Delivered (s : Session) : Prop :=
  s.dispatched.map (fun p => (p.1.kind, p.1.raw, p.1.bytes)) = s.completed ∧
    (∀ p ∈ s.dispatched, p.1.skip_hist = true → p.2 = true) ∧
    (¬ s.answering →
      s.fw.hist_loading = false ∧ s.fw.live_pending = [] ∧ s.records.drop s.before = s.since)

theorem delivered_of_sorted (s : Session) (h : Sorted s) (hm : Marked s) : Delivered s := by
  refine ⟨h.dispatched, hm.skipped, fun hno => ?_⟩
  have hload : s.fw.hist_loading = false := by
    rw [Bool.eq_false_iff]
    intro hload
    rcases h.waiting hload with hreq | ⟨st, hst, hkind, hsub, -⟩
    · exact hno (Or.inl hreq)
    · exact hno (Or.inr ⟨st, hst, hkind, hsub⟩)
  have hnil := h.pending hload
  obtain ⟨earlier, hbefore, hrec⟩ := h.records
  rw [hnil, List.append_nil] at hrec
  exact ⟨hload, hnil, by rw [hrec, ← hbefore, List.drop_left]⟩

/-- In every run under the condition the streams are handed on whole and apart. -/
theorem delivered_of_run (es : List HistEvent) (s : Session)
    (h : Run ClearHistStep Session.start es s) : Delivered s := by
  have hinv : Sorted s ∧ Marked s := by
    refine h.invariant (P := fun s => Sorted s ∧ Marked s) ?_ ⟨sorted_start, marked_start⟩
    rintro s e s' ⟨hclear, hstep⟩ ⟨hs, hm⟩
    exact ⟨sorted_step s e s' hclear hstep hs, marked_step s e s' hclear hstep hm⟩
  exact delivered_of_sorted s hinv.1 hinv.2

/-- The session after a list of events. -/
def Session.after (s : Session) (es : List HistEvent) : Session :=
  es.foldl (fun s e => e.apply s) s

theorem run_of_histClearRun (es : List HistEvent) (s : Session)
    (h : follows (fun e s => e.clear s && e.enabled s) HistEvent.apply s es = true) :
    Run ClearHistStep s es (s.after es) :=
  run_of_follows _ (fun e s hstep => by
    rw [Bool.and_eq_true] at hstep
    exact ⟨hstep.1, hstep.2, rfl⟩) es s h

/-- A subscription and a vessel's stream, with live records before, during and after. -/
def subscribed : List HistEvent :=
  [.setRecv true true, .data [1], .reqVessel true, .begin 0, .chunk [2], .data [3], .chunk [4],
    .done, .begin 0, .data [5], .chunk [6], .done]

theorem delivered_of_run_subscribed : Delivered (Session.start.after subscribed) :=
  delivered_of_run subscribed _ (run_of_histClearRun subscribed _ (by decide))

/-- A new connection cuts a vessel's stream; the history of the subscription made on it is added to
what had arrived of the vessel's, and handed on as the vessel's. -/
theorem mixed_by_reconnect :
    ¬ ∀ (es : List HistEvent) (s : Session), Run HistStep Session.start es s → Delivered s := by
  intro hclaim
  have h := hclaim
    [.reqVessel true, .begin 0, .chunk [1], .reconnect, .setRecv true true, .begin 0, .chunk [2],
      .done] _
    (run_of_follows HistEvent.enabled (fun _ _ hstep => ⟨hstep, rfl⟩) _ _ (by decide))
  exact absurd h.1 (by decide)

end Bewe.ModulePipe
