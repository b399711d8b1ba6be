import Bewe.Lib.Run
import Bewe.Text

/-!
# Pushing a day's module archive to Central

HOST reads the day's JSONL file, compresses it if that makes it shorter, and sends it as one META,
chunks of 8192 bytes and one DONE, without sequence numbers and without an answer
(`host_arch_push_file`). Central keeps one reception for each module of a room and replaces the
station's file of the day when DONE comes (`handle_host_module_pipe`).

A push is the file HOST read and the packets of its stream that arrive: some of them, in order.
What Central stores is then a file that HOST read, unless a DONE finds a reception that lacks chunks
or holds those of another stream, and zlib does not refuse what it holds (`stored_of_run`). An
uncompressed stream is stored as far as it arrived.
-/

namespace Bewe.ModulePipe

open Lib

/-! ## HOST -/

/-- zlib as the two sides use it: `compress2`, where it succeeds, and `uncompress` into a buffer of
a given size, where it succeeds. -/
structure Zlib where
  compress2 : Bytes → Option Bytes
  uncompress : ℕ → Bytes → Option Bytes

/-- What is documented of zlib: a compressed stream is not empty, and uncompressing it gives the
original if the buffer has room for it and fails otherwise. -/
structure Zlib.RoundTrips (z : Zlib) : Prop where
  nonempty : ∀ f c, z.compress2 f = some c → c ≠ []
  uncompress : ∀ f c, z.compress2 f = some c →
    ∀ n, z.uncompress n c = if f.length ≤ n then some f else none

/-- The packets of a push. -/
inductive ArchPacket
  | archMeta (date : Bytes) (total raw : ℕ)
  | archChunk (bytes : Bytes)
  | archDone
  deriving DecidableEq

/-- The bytes of a chunk, at most. -/
def CHUNK : ℕ := 8192

/-- The pieces of `CHUNK` bytes, in at most `fuel` steps. -/
def chunksFrom : ℕ → Bytes → List Bytes
  | 0, _ => []
  | _ + 1, [] => []
  | fuel + 1, b :: bs => (b :: bs).take CHUNK :: chunksFrom fuel ((b :: bs).drop CHUNK)

/-- The chunks of what is sent. -/
def chunks (wire : Bytes) : List Bytes :=
  chunksFrom wire.length wire

section

variable (z : Zlib)

/-- What is sent for a file, and its size before compression, 0 if it is sent as it is. -/
def archWire (body : Bytes) : Bytes × ℕ :=
  match body, z.compress2 body with
  | [], _ => ([], 0)
  | body, some c => if c.length < body.length then (c, body.length) else (body, 0)
  | body, none => (body, 0)

/-- The packets that `host_arch_push_file` sends; sizes have 32 bits. -/
def hostArchPushFile (date body : Bytes) : List ArchPacket :=
  let (wire, raw) := archWire z body
  .archMeta date (wire.length % 2 ^ 32) (raw % 2 ^ 32) ::
    ((chunks wire).map .archChunk ++ [.archDone])

/-! ## Central -/

/-- `HostRoom::ArchRx`. -/
structure ArchRx where
  date : Bytes
  total : ℕ
  raw : ℕ
  buf : Bytes
  active : Bool

/-- The receptions of a room and the station's stored files, by module and date. -/
structure ArchState where
  arch_rx : String → Option ArchRx
  files : String → Bytes → Option Bytes

/-- `valid_date8`. -/
def validDate8 (d : Bytes) : Bool :=
  decide (d.length = 8) && d.all fun c => 48 ≤ c && c ≤ 57

/-- The size above which a push is not received. -/
def ARCH_MAX : ℕ := 256 * 1024 * 1024

/-- One reception replaced. -/
def ArchState.setRx (s : ArchState) (mod : String) (rx : ArchRx) : ArchState :=
  { s with arch_rx := Function.update s.arch_rx mod (some rx) }

/-- A day's file replaced. -/
def ArchState.store (s : ArchState) (mod : String) (date body : Bytes) : ArchState :=
  { s with files := Function.update s.files mod (Function.update (s.files mod) date (some body)) }

/-- What DONE makes of a reception: nothing if zlib fails or gives another size. -/
def archBody (raw : ℕ) (buf : Bytes) : Option Bytes :=
  if 0 < raw ∧ buf ≠ [] then (z.uncompress raw buf).filter fun out => out.length = raw
  else some buf

/-- A chunk is added to a reception, which is given up when it gets too long. -/
def ArchRx.add (rx : ArchRx) (bytes : Bytes) : ArchRx :=
  if rx.active then
    if rx.total < rx.buf.length + bytes.length then { rx with active := false, buf := [] }
    else { rx with buf := rx.buf ++ bytes }
  else rx

/-- The part of `handle_host_module_pipe` for the three packets. -/
def ArchState.receive (s : ArchState) (mod : String) : ArchPacket → ArchState
  | .archMeta date total raw =>
    if validDate8 date then s.setRx mod ⟨date, total, raw, [], decide (total ≤ ARCH_MAX)⟩ else s
  | .archChunk bytes =>
    match s.arch_rx mod with
    | some rx => s.setRx mod (rx.add bytes)
    | none => s
  | .archDone =>
    match s.arch_rx mod with
    | some rx =>
      if rx.active then
        let s' := s.setRx mod { rx with active := false, buf := [] }
        match archBody z rx.raw rx.buf with
        | some body => s'.store mod rx.date body
        | none => s'
      else s
    | none => s

/-- Packets received one after another. -/
def ArchState.receiveAll (s : ArchState) (mod : String) (ps : List ArchPacket) : ArchState :=
  ps.foldl (fun s p => s.receive z mod p) s

/-! ## Pushes -/

/-- A push of a file read by HOST, of whose packets `kept` arrive, or a new connection of HOST, for
which Central makes a new room. -/
inductive ArchEvent
  | push (mod : String) (date body : Bytes) (kept : List ArchPacket)
  | reconnect

/-- What an event does. -/
def ArchEvent.apply : ArchEvent → ArchState → ArchState
  | .push mod _ _ kept, s => s.receiveAll z mod kept
  | .reconnect, s => { s with arch_rx := fun _ => none }

/-- What arrives of a push is a part of its stream, in order; HOST's dates have eight digits. -/
def ArchEvent.sent : ArchEvent → Prop
  | .push _ date body kept => validDate8 date ∧ kept.Sublist (hostArchPushFile z date body)
  | .reconnect => True

/-- One event. -/
def ArchStep (s : ArchState) (e : ArchEvent) (s' : ArchState) : Prop :=
  e.sent z ∧ s' = e.apply z s

end

/-! ## The chunks -/

/-- The bytes of the chunks among some packets. -/
def chunkBytes (ps : List ArchPacket) : Bytes :=
  ps.flatMap fun
    | .archChunk bytes => bytes
    | _ => []

@[simp]
theorem chunkBytes_map (ms : List Bytes) : chunkBytes (ms.map .archChunk) = ms.flatten := by
  induction ms with
  | nil => rfl
  | cons m ms ih => simpa [chunkBytes] using ih

theorem chunkBytes_append (ps qs : List ArchPacket) :
    chunkBytes (ps ++ qs) = chunkBytes ps ++ chunkBytes qs := by
  simp [chunkBytes]

theorem sublist_chunks {ps : List ArchPacket} {ms : List Bytes}
    (h : ps.Sublist (ms.map .archChunk)) : ∃ ms' : List Bytes, ps = ms'.map .archChunk := by
  obtain ⟨ms', -, rfl⟩ := List.sublist_map_iff.mp h
  exact ⟨ms', rfl⟩

theorem kept_cases (z : Zlib) (date body : Bytes) (kept : List ArchPacket)
    (h : kept.Sublist (hostArchPushFile z date body)) :
    ∃ (first last : Bool) (ms : List Bytes),
      kept =
        (if first then [.archMeta date ((archWire z body).1.length % 2 ^ 32)
            ((archWire z body).2 % 2 ^ 32)] else [])
          ++ ms.map .archChunk ++ (if last then [.archDone] else []) := by
  unfold hostArchPushFile at h
  simp only at h
  -- the part after META
  have hrest : ∀ ps : List ArchPacket,
      ps.Sublist ((chunks (archWire z body).1).map .archChunk ++ [.archDone]) →
      ∃ (last : Bool) (ms : List Bytes),
        ps = ms.map .archChunk ++ (if last then [.archDone] else []) := by
    intro ps hps
    obtain ⟨l₁, l₂, rfl, h₁, h₂⟩ := List.sublist_append_iff.mp hps
    obtain ⟨ms, rfl⟩ := sublist_chunks h₁
    rcases List.sublist_singleton.mp h₂ with rfl | rfl
    · exact ⟨false, ms, by simp⟩
    · exact ⟨true, ms, by simp⟩
  rcases List.sublist_cons_iff.mp h with hnone | ⟨r, rfl, hsome⟩
  · obtain ⟨last, ms, rfl⟩ := hrest _ hnone
    exact ⟨false, last, ms, by simp⟩
  · obtain ⟨last, ms, rfl⟩ := hrest _ hsome
    exact ⟨true, last, ms, by simp⟩

/-! ## A reception -/

theorem add_chunks (ms : List Bytes) (rx : ArchRx) :
    (ms.foldl ArchRx.add rx).active = false ∨
      rx.active = true ∧ ms.foldl ArchRx.add rx = { rx with buf := rx.buf ++ ms.flatten } := by
  induction ms generalizing rx with
  | nil =>
    cases hact : rx.active with
    | false => exact Or.inl hact
    | true =>
      obtain ⟨date, total, raw, buf, active⟩ := rx
      simp only at hact
      subst hact
      exact Or.inr ⟨rfl, by simp⟩
  | cons m ms ih =>
    rw [List.foldl_cons]
    rcases ih (rx.add m) with h | ⟨hact, h⟩
    · exact Or.inl h
    · -- the reception was open after the first chunk, so that chunk was added
      rw [h]
      unfold ArchRx.add at hact ⊢
      split at hact
      · rename_i hopen
        rw [if_pos hopen]
        split at hact
        · simp at hact
        · rename_i hroom
          rw [if_neg hroom]
          exact Or.inr ⟨hopen, by simp⟩
      · rename_i hclosed
        exact absurd hact hclosed

theorem receive_chunks (z : Zlib) (mod : String) (ms : List Bytes) (s : ArchState) :
    (s.receiveAll z mod (ms.map .archChunk)).files = s.files ∧
      (s.receiveAll z mod (ms.map .archChunk)).arch_rx mod
        = (s.arch_rx mod).map (ms.foldl ArchRx.add) := by
  induction ms generalizing s with
  | nil =>
    refine ⟨rfl, ?_⟩
    show s.arch_rx mod = _
    cases s.arch_rx mod <;> rfl
  | cons m ms ih =>
    obtain ⟨h₁, h₂⟩ := ih (s.receive z mod (.archChunk m))
    simp only [ArchState.receiveAll, List.map_cons, List.foldl_cons] at h₁ h₂ ⊢
    rw [h₁, h₂]
    cases hrx : s.arch_rx mod with
    | none => simp [ArchState.receive, hrx]
    | some rx => simp [ArchState.receive, hrx, ArchState.setRx]

theorem receive_done (z : Zlib) (mod : String) (s : ArchState) :
    (s.receive z mod .archDone).files = s.files ∨
      ∃ rx body, s.arch_rx mod = some rx ∧ rx.active = true ∧ archBody z rx.raw rx.buf = some body ∧
        (s.receive z mod .archDone).files
          = Function.update s.files mod (Function.update (s.files mod) rx.date (some body)) := by
  unfold ArchState.receive
  cases hrx : s.arch_rx mod with
  | none => exact Or.inl rfl
  | some rx =>
    simp only
    split
    · rename_i hact
      cases hbody : archBody z rx.raw rx.buf with
      | none => exact Or.inl rfl
      | some body => exact Or.inr ⟨rx, body, rfl, hact, hbody, rfl⟩
    · exact Or.inl rfl

theorem archWire_cases (z : Zlib) (body : Bytes) :
    archWire z body = (body, 0) ∨
      ∃ c, z.compress2 body = some c ∧ archWire z body = (c, body.length) := by
  unfold archWire
  cases body with
  | nil => exact Or.inl rfl
  | cons b bs =>
    cases hc : z.compress2 (b :: bs) with
    | none => exact Or.inl rfl
    | some c =>
      simp only
      split
      · exact Or.inr ⟨c, rfl, rfl⟩
      · exact Or.inl rfl

/-- A whole stream gives the file back, or nothing, if the file's size before compression is not a
multiple of 4 GiB. -/
theorem archBody_archWire (z : Zlib) (hz : z.RoundTrips) (body : Bytes)
    (h : (archWire z body).2 = 0 ∨ (archWire z body).2 % 2 ^ 32 ≠ 0) :
    archBody z ((archWire z body).2 % 2 ^ 32) (archWire z body).1 = some body ∨
      archBody z ((archWire z body).2 % 2 ^ 32) (archWire z body).1 = none := by
  rcases archWire_cases z body with hw | ⟨c, hc, hw⟩
  · rw [hw]
    exact Or.inl (by simp [archBody])
  · rw [hw] at h ⊢
    have hne := hz.nonempty body c hc
    have hle : body.length % 2 ^ 32 ≤ body.length := Nat.mod_le _ _
    rcases h with h | h
    · -- an empty file is not compressed
      have hnil : body = [] := List.length_eq_zero_iff.mp h
      subst hnil
      simp only [archWire, Prod.mk.injEq] at hw
      exact absurd hw.1.symm hne
    · simp only at h ⊢
      rw [archBody, if_pos ⟨Nat.pos_of_ne_zero h, hne⟩, hz.uncompress body c hc]
      split
      · rename_i hfit
        left
        simp [Option.filter]
        omega
      · exact Or.inr rfl

/-! ## Stored files -/

/-- The packet opens a reception. -/
def ArchPacket.opens : ArchPacket → Bool
  | .archMeta .. => true
  | _ => false

/-- The condition under which a push leaves no damaged file: if its DONE arrives, then either META
and all chunks have arrived, or zlib refuses what has, or the stream is too large to be received,
and without META no reception is open, unless zlib refuses what that one holds. The size of a file
that is compressed is not a multiple of 4 GiB. -/
def ArchEvent.clear (z : Zlib) : ArchEvent → ArchState → Bool
  | .push mod _ body kept, s =>
    let (wire, raw) := archWire z body
    if kept.contains .archDone then
      if kept.any ArchPacket.opens then
        (decide (chunkBytes kept = wire) && (decide (raw = 0) || decide (raw % 2 ^ 32 ≠ 0)))
          || decide (archBody z (raw % 2 ^ 32) (chunkBytes kept) = none)
          || decide (ARCH_MAX < wire.length % 2 ^ 32)
      else
        match s.arch_rx mod with
        | some rx => !rx.active || decide (archBody z rx.raw (rx.buf ++ chunkBytes kept) = none)
        | none => true
    else true
  | .reconnect, _ => true

/-- A step under the condition. -/
def ClearArchStep (z : Zlib) (s : ArchState) (e : ArchEvent) (s' : ArchState) : Prop :=
  e.clear z s = true ∧ ArchStep z s e s'

/-- What a step may do to the stored files: nothing, or put in the file that HOST read for the
push. -/
def Undamaged (s : ArchState) (e : ArchEvent) (s' : ArchState) : Prop :=
  ∀ mod date, s'.files mod date = s.files mod date ∨
    ∃ body kept, e = .push mod date body kept ∧ s'.files mod date = some body

theorem undamaged_update (s : ArchState) (mod : String) (date body : Bytes) (kept : List ArchPacket)
    (s' : ArchState)
    (h : s'.files = Function.update s.files mod (Function.update (s.files mod) date (some body))) :
    Undamaged s (.push mod date body kept) s' := by
  intro mod' date'
  rw [h]
  rcases Decidable.em (mod' = mod) with rfl | hmod
  · rcases Decidable.em (date' = date) with rfl | hdate
    · exact Or.inr ⟨body, kept, rfl, by simp⟩
    · exact Or.inl (by simp [Function.update_of_ne hdate])
  · exact Or.inl (by rw [Function.update_of_ne hmod])

theorem undamaged_step (z : Zlib) (hz : z.RoundTrips) (s : ArchState) (e : ArchEvent)
    (s' : ArchState) (h : ClearArchStep z s e s') : Undamaged s e s' := by
  obtain ⟨hclear, hsent, rfl⟩ := h
  cases e with
  | reconnect => exact fun mod date => Or.inl rfl
  | push mod date body kept =>
    obtain ⟨hdate, hsub⟩ := hsent
    obtain ⟨first, last, ms, hkept⟩ := kept_cases z date body kept hsub
    -- the state when META has been received, or not
    set s₀ := s.receiveAll z mod (if first then [.archMeta date ((archWire z body).1.length % 2 ^ 32)
      ((archWire z body).2 % 2 ^ 32)] else []) with hs₀
    have hfiles₀ : s₀.files = s.files := by
      rw [hs₀]
      cases first with
      | false => rfl
      | true => simp [ArchState.receiveAll, ArchState.receive, hdate, ArchState.setRx]
    obtain ⟨hfiles₁, hrx₁⟩ := receive_chunks z mod ms s₀
    set s₁ := s₀.receiveAll z mod (ms.map .archChunk) with hs₁
    have happly : (ArchEvent.push mod date body kept).apply z s
        = s₁.receiveAll z mod (if last then [.archDone] else []) := by
      simp only [ArchEvent.apply, hkept, ArchState.receiveAll, List.foldl_append, hs₁, hs₀]
    rw [happly]
    have hbytes : chunkBytes kept = ms.flatten := by
      rw [hkept, chunkBytes_append, chunkBytes_append, chunkBytes_map]
      cases first <;> cases last <;> simp [chunkBytes]
    cases last with
    | false =>
      intro mod' date'
      left
      show s₁.files mod' date' = _
      rw [hfiles₁, hfiles₀]
    | true =>
      have hdone : kept.contains .archDone = true := by simp [hkept]
      have hopens : kept.any ArchPacket.opens = first := by
        rw [hkept]
        cases first <;> simp [ArchPacket.opens]
      simp only [ArchEvent.clear, hdone, hopens, if_true, hbytes] at hclear
      rcases receive_done z mod s₁ with hsame | ⟨rx, stored, hrx, hact, hbody, hstore⟩
      · intro mod' date'
        left
        show (s₁.receive z mod .archDone).files mod' date' = _
        rw [hsame, hfiles₁, hfiles₀]
      · rw [hrx] at hrx₁
        cases first with
        | true =>
          -- the reception is the one that META opened, with all chunks that arrived
          have hrx₀ : s₀.arch_rx mod = some
              ⟨date, (archWire z body).1.length % 2 ^ 32, (archWire z body).2 % 2 ^ 32, [],
                decide ((archWire z body).1.length % 2 ^ 32 ≤ ARCH_MAX)⟩ := by
            rw [hs₀]
            simp [ArchState.receiveAll, ArchState.receive, hdate, ArchState.setRx]
          rw [hrx₀, Option.map_some, Option.some.injEq] at hrx₁
          rcases add_chunks ms _ with hno | ⟨hopen, hall⟩
          · rw [← hrx₁] at hno
            exact absurd hact (by simp [hno])
          rw [hall] at hrx₁
          subst hrx₁
          simp only [List.nil_append] at hbody hstore
          simp only [decide_eq_true_eq] at hopen
          simp only [if_true, Bool.or_eq_true, Bool.and_eq_true, decide_eq_true_eq] at hclear
          rcases hclear with (⟨hwhole, hsize⟩ | hrefused) | hlarge
          · rw [hwhole] at hbody
            have hstored : stored = body := by
              rcases archBody_archWire z hz body hsize with hb | hb
              · rw [hb] at hbody
                exact (Option.some.inj hbody).symm
              · rw [hb] at hbody
                exact absurd hbody (by simp)
            refine undamaged_update s mod date body kept _ ?_
            show (s₁.receive z mod .archDone).files = _
            rw [hstore, hfiles₁, hfiles₀, hstored]
          · rw [hrefused] at hbody
            exact absurd hbody (by simp)
          · omega
        | false =>
          have hs₀s : s₀ = s := by rw [hs₀]; rfl
          rw [hs₀s] at hrx₁
          cases hrx₀ : s.arch_rx mod with
          | none =>
            rw [hrx₀] at hrx₁
            exact absurd hrx₁ (by simp)
          | some rx₀ =>
            rw [hrx₀, Option.map_some, Option.some.injEq] at hrx₁
            rcases add_chunks ms rx₀ with hno | ⟨hopen, hall⟩
            · rw [← hrx₁] at hno
              exact absurd hact (by simp [hno])
            rw [hall] at hrx₁
            subst hrx₁
            simp only [Bool.false_eq_true, if_false, hrx₀, hopen, Bool.not_true, Bool.false_or,
              decide_eq_true_eq] at hclear
            rw [hclear] at hbody
            exact absurd hbody (by simp)

/-- Central with some stored files and no reception. -/
def ArchState.start (files : String → Bytes → Option Bytes) : ArchState := ⟨fun _ => none, files⟩

/-- In a run of pushes under the condition every step leaves each stored file as it was or puts in
its place the file that HOST read, so that what is stored in the end was there in the beginning or
is such a file. -/
theorem stored_of_run (z : Zlib) (hz : z.RoundTrips) (files : String → Bytes → Option Bytes)
    {es : List ArchEvent} {s : ArchState}
    (h : Run (ClearArchStep z) (ArchState.start files) es s) :
    (∀ e s', ClearArchStep z s e s' → Undamaged s e s') ∧
      ∀ mod date, s.files mod date = files mod date ∨
        ∃ body kept, .push mod date body kept ∈ es ∧ s.files mod date = some body := by
  refine ⟨fun e s' hstep => undamaged_step z hz s e s' hstep, ?_⟩
  -- the same for a run from any state, to make the induction go through
  have hrun : ∀ (s₀ : ArchState) (es : List ArchEvent) (s : ArchState),
      Run (ClearArchStep z) s₀ es s → ∀ mod date, s.files mod date = s₀.files mod date ∨
        ∃ body kept, .push mod date body kept ∈ es ∧ s.files mod date = some body := by
    intro s₀ es s hr
    induction hr with
    | nil => exact fun mod date => Or.inl rfl
    | cons hstep _ ih =>
      intro mod date
      rcases ih mod date with hsame | ⟨body, kept, hmem, hstored⟩
      · rcases undamaged_step z hz _ _ _ hstep mod date with h₀ | ⟨body, kept, rfl, h₀⟩
        · exact Or.inl (hsame.trans h₀)
        · exact Or.inr ⟨body, kept, List.mem_cons_self, hsame.trans h₀⟩
      · exact Or.inr ⟨body, kept, List.mem_cons_of_mem _ hmem, hstored⟩
  exact hrun _ es s h

/-! ## Two runs -/

instance (z : Zlib) (e : ArchEvent) : Decidable (e.sent z) :=
  match e with
  | .push _ date body kept =>
    inferInstanceAs (Decidable (validDate8 date ∧ kept.Sublist (hostArchPushFile z date body)))
  | .reconnect => inferInstanceAs (Decidable True)

/-- The events of a list one after another. -/
def ArchState.after (z : Zlib) (s : ArchState) (es : List ArchEvent) : ArchState :=
  es.foldl (fun s e => e.apply z s) s

theorem run_of_archClearRun (z : Zlib) (es : List ArchEvent) (s : ArchState)
    (h : follows (fun e s => e.clear z s && decide (e.sent z)) (fun e s => e.apply z s) s es = true) :
    Run (ClearArchStep z) s es (s.after z es) :=
  run_of_follows _ (fun e s hstep => by
    rw [Bool.and_eq_true, decide_eq_true_eq] at hstep
    exact ⟨hstep.1, hstep.2, rfl⟩) es s h

/-- A compressor that shortens forty line feeds and lengthens everything else by a byte. -/
def lineFeeds : Zlib where
  compress2 f := if f = List.replicate 40 10 then some [120, 40] else some (121 :: f)
  uncompress n c :=
    match c with
    | [120, 40] => if 40 ≤ n then some (List.replicate 40 10) else none
    | 121 :: f => if f.length ≤ n then some f else none
    | _ => none

theorem lineFeeds_roundTrips : lineFeeds.RoundTrips where
  nonempty := by
    intro f c hc
    simp only [lineFeeds] at hc
    split at hc <;> simp only [Option.some.injEq] at hc <;> simp [← hc]
  uncompress := by
    intro f c hc n
    simp only [lineFeeds] at hc
    split at hc
    · rename_i hf
      simp only [Option.some.injEq] at hc
      simp [← hc, hf, lineFeeds]
    · simp only [Option.some.injEq] at hc
      simp [← hc, lineFeeds]

/-- The date of the examples. -/
def day : Bytes := ascii "20260731"

/-- A compressed push, one that breaks off after META with the connection, and one that is sent as
it is. -/
def pushes : List ArchEvent :=
  [.push "ais" day (List.replicate 40 10) (hostArchPushFile lineFeeds day (List.replicate 40 10)),
   .push "ais" day (ascii "{}") ((hostArchPushFile lineFeeds day (ascii "{}")).take 1),
   .reconnect,
   .push "ais" day (ascii "{}") (hostArchPushFile lineFeeds day (ascii "{}"))]

/-- These pushes leave a file that HOST read. -/
theorem stored_of_run_pushes :
    let s := (ArchState.start fun _ _ => none).after lineFeeds pushes
    (∀ e s', ClearArchStep lineFeeds s e s' → Undamaged s e s') ∧
      ∀ mod date, s.files mod date = none ∨
        ∃ body kept, .push mod date body kept ∈ pushes ∧ s.files mod date = some body :=
  stored_of_run lineFeeds lineFeeds_roundTrips (fun _ _ => none)
    (run_of_archClearRun lineFeeds pushes _ (by decide))

/-- A file is pushed twice, and the second time its only chunk is lost: DONE replaces the file by an
empty one. -/
theorem damaged_by_lost_chunk :
    ¬ ∀ (z : Zlib), z.RoundTrips → ∀ (files : String → Bytes → Option Bytes) (es : List ArchEvent)
        (s : ArchState) (e : ArchEvent) (s' : ArchState),
      Run (ArchStep z) (ArchState.start files) es s → ArchStep z s e s' → Undamaged s e s' := by
  intro hclaim
  set whole : ArchEvent := .push "ais" day (ascii "{}") (hostArchPushFile lineFeeds day (ascii "{}"))
    with hwhole
  set lossy : ArchEvent := .push "ais" day (ascii "{}") [.archMeta day 2 0, .archDone] with hlossy
  set s := whole.apply lineFeeds (ArchState.start fun _ _ => none) with hs
  have hfirst : ArchStep lineFeeds (ArchState.start fun _ _ => none) whole s :=
    ⟨by decide, rfl⟩
  have hsecond : ArchStep lineFeeds s lossy (lossy.apply lineFeeds s) := ⟨by decide, rfl⟩
  have hbefore : s.files "ais" day = some (ascii "{}") := by decide
  have hafter : (lossy.apply lineFeeds s).files "ais" day = some [] := by decide
  rcases hclaim lineFeeds lineFeeds_roundTrips _ [whole] s lossy _ (Run.cons hfirst (Run.nil s))
    hsecond "ais" day with h | ⟨body, kept, he, h⟩
  · rw [hafter, hbefore] at h
    exact absurd h (by decide)
  · rw [hlossy] at he
    injection he with _ _ hbody _
    rw [hafter, ← hbody] at h
    exact absurd h (by decide)

end Bewe.ModulePipe
