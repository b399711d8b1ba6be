import Bewe.Lib.Run
import Mathlib.Data.Finset.Basic

/-!
# Who wants a decoder to run

HOST keeps three things for a module and a channel: `g_owners`, the operators that have switched the
decoder on, `want_mask`, the intent to run it, and `host_mask`, whether its worker runs. An owned
SET changes the owners and only then, when the running mask disagrees with them, calls
`host_apply_set`, which changes the other two. Workers that die clear the running mask alone, and
deleting a channel clears both masks and leaves the owners.

`Host` is this part of `module_registry.cpp` with the channels it reads, and `Event` what can happen
to it. `Wanted` is the history the masks are to agree with: what each operator last asked for since
the channel was created. The masks agree with it in every run in which no last operator leaves while
the worker is down, no channel is created or deleted while it has owners, and no edit that stops the
demodulator meets a worker that is down (`want_iff_wanted_of_run`).
-/

namespace Bewe.ModulePipe

open Lib

/-- The number of channels. -/
def MAX_CHANNELS : ℕ := 50

/-- The fields of `BeweModule` that decide about workers: whether it is run on a channel, and
whether it cleans up when the demodulator stops. -/
structure BeweModule where
  id : String
  target_modes : BitVec 8
  on_ch_stop : Bool
  deriving DecidableEq

/-- The two masks of `ModFw`. -/
structure ModFw where
  host_mask : BitVec 64
  want_mask : BitVec 64

/-- What the registry reads of a channel. -/
structure Channel where
  filter_active : Bool
  dem_run : Bool
  mode : ℕ

/-- The registered modules, their masks, the owners of each module and channel, and the channels. -/
structure Host where
  reg : List BeweModule
  fw : String → ModFw
  owners : String → ℕ → Finset String
  channels : ℕ → Channel

/-! ## Masks -/

/-- `mask |= 1ull << ch`. -/
def setBit (mask : BitVec 64) (ch : ℕ) : BitVec 64 :=
  mask ||| (1#64 <<< ch)

/-- `mask &= ~(1ull << ch)`. -/
def clearBit (mask : BitVec 64) (ch : ℕ) : BitVec 64 :=
  mask &&& ~~~(1#64 <<< ch)

theorem getLsbD_one_shift (ch c : ℕ) :
    (1#64 <<< ch).getLsbD c = decide (c = ch ∧ c < 64) := by
  rw [BitVec.getLsbD_shiftLeft, BitVec.getLsbD_one]
  by_cases hc : c < 64
  · by_cases hlt : c < ch
    · simp [hc, hlt]
      omega
    · simp [hc, hlt]
      omega
  · simp [hc]

@[simp]
theorem getLsbD_setBit (mask : BitVec 64) (ch c : ℕ) :
    (setBit mask ch).getLsbD c = (mask.getLsbD c || decide (c = ch ∧ c < 64)) := by
  rw [setBit, BitVec.getLsbD_or, getLsbD_one_shift]

@[simp]
theorem getLsbD_clearBit (mask : BitVec 64) (ch c : ℕ) :
    (clearBit mask ch).getLsbD c = (mask.getLsbD c && !decide (c = ch)) := by
  rw [clearBit, BitVec.getLsbD_and, BitVec.getLsbD_not, getLsbD_one_shift]
  by_cases hc : c < 64
  · simp [hc]
  · simp [BitVec.getLsbD_of_ge mask c (by omega)]

namespace Host

/-- The running bit of a module and a channel. -/
def running (h : Host) (id : String) (ch : ℕ) : Bool :=
  (h.fw id).host_mask.getLsbD ch

/-- The intent bit of a module and a channel. -/
def want (h : Host) (id : String) (ch : ℕ) : Bool :=
  (h.fw id).want_mask.getLsbD ch

/-! ## The operations -/

/-- The masks of one module replaced. -/
def setFw (h : Host) (id : String) (f : ModFw) : Host :=
  { h with fw := Function.update h.fw id f }

/-- `bewe_mod_host_mask_clear`. -/
def hostMaskClear (h : Host) (id : String) (ch : ℕ) : Host :=
  h.setFw id { h.fw id with host_mask := clearBit (h.fw id).host_mask ch }

/-- `host_apply_set`; `start` says whether `host_start` succeeds. The intent does not depend on
that. -/
def hostApplySet (h : Host) (start : String → ℕ → Bool) (id : String) (ch : ℕ) (on : Bool) : Host :=
  if MAX_CHANNELS ≤ ch then h
  else
    let f := h.fw id
    if on then
      h.setFw id
        { host_mask := if start id ch then setBit f.host_mask ch else f.host_mask
          want_mask := setBit f.want_mask ch }
    else
      h.setFw id { host_mask := clearBit f.host_mask ch, want_mask := clearBit f.want_mask ch }

/-- The owners of a module and channel replaced. -/
def setOwners (h : Host) (id : String) (ch : ℕ) (s : Finset String) : Host :=
  { h with owners := Function.update h.owners id (Function.update (h.owners id) ch s) }

/-- `host_apply_set_owned`: an empty owner is the shared way of setting. -/
def hostApplySetOwned (h : Host) (start : String → ℕ → Bool) (id : String) (ch : ℕ) (on : Bool)
    (owner : String) : Host :=
  if owner = "" then h.hostApplySet start id ch on
  else
    let s := if on then insert owner (h.owners id ch) else (h.owners id ch).erase owner
    let h₁ := h.setOwners id ch s
    let now_on := decide (s ≠ ∅)
    let was_on := h₁.running id ch
    if now_on ≠ was_on then h₁.hostApplySet start id ch now_on else h₁

/-- `bewe_mod_want_clear_ch`. -/
def wantClearCh (h : Host) (ch : ℕ) : Host :=
  if MAX_CHANNELS ≤ ch then h
  else { h with fw := fun id => { h.fw id with want_mask := clearBit (h.fw id).want_mask ch } }

/-- A module's `on_ch_stop`: a running worker is stopped. -/
def onChStop (h : Host) (m : BeweModule) (ch : ℕ) : Host :=
  if m.on_ch_stop && h.running m.id ch then h.hostMaskClear m.id ch else h

/-- `stop_dem` with `stop_decoders`: the intents of the channel go, and the workers. -/
def stopDem (h : Host) (ch : ℕ) : Host :=
  let h₁ := (h.reg.foldl (fun h m => h.onChStop m ch) (h.wantClearCh ch))
  let c := h₁.channels ch
  if c.dem_run then
    { h₁ with channels := Function.update h₁.channels ch { c with dem_run := false, mode := 0 } }
  else h₁

/-- `start_dem`. -/
def startDem (h : Host) (ch mode : ℕ) : Host :=
  let c := h.channels ch
  if c.dem_run || !c.filter_active then h
  else { h with channels := Function.update h.channels ch { c with mode := mode, dem_run := true } }

/-- The modules whose workers run on the channel. -/
def wasrun (h : Host) (ch : ℕ) : List BeweModule :=
  h.reg.filter fun m => m.target_modes ≠ 0 && h.running m.id ch

/-- `host_apply_set` for each of a list of modules. -/
def applyAll (h : Host) (start : String → ℕ → Bool) (ms : List BeweModule) (ch : ℕ) (on : Bool) :
    Host :=
  ms.foldl (fun h m => h.hostApplySet start m.id ch on) h

/-- Whether an edit of the channel to a mode stops the demodulator: another mode, or one that
runs. -/
def editStops (h : Host) (ch mode : ℕ) : Bool :=
  (decide (mode ≤ 2) && decide ((h.channels ch).mode ≠ mode)) || (h.channels ch).dem_run

/-- `channels[ch].mode = mode`. -/
def setMode (h : Host) (ch mode : ℕ) : Host :=
  { h with channels := Function.update h.channels ch { h.channels ch with mode := mode } }

/-- The demodulator's part of `apply_ch_edit_local`. -/
def editDem (h : Host) (ch mode : ℕ) : Host :=
  if mode ≤ 2 ∧ (h.channels ch).mode ≠ mode then
    let h₁ := (h.stopDem ch).setMode ch mode
    if mode ≠ 0 ∧ (h₁.channels ch).filter_active then h₁.startDem ch mode else h₁
  else if (h.channels ch).dem_run then (h.stopDem ch).startDem ch (h.channels ch).mode
  else h

/-- `apply_ch_edit_local`, apart from the geometry. -/
def applyChEditLocal (h : Host) (start : String → ℕ → Bool) (ch mode : ℕ) : Host :=
  if MAX_CHANNELS ≤ ch ∨ (h.channels ch).filter_active = false then h
  else
    let ms := h.wasrun ch
    ((h.applyAll start ms ch false).editDem ch mode).applyAll start ms ch true

/-- `apply_ch_del_local`. -/
def applyChDelLocal (h : Host) (start : String → ℕ → Bool) (ch : ℕ) : Host :=
  if MAX_CHANNELS ≤ ch ∨ (h.channels ch).filter_active = false then h
  else
    let h₁ := (h.applyAll start (h.wasrun ch) ch false).stopDem ch
    { h₁ with channels := Function.update h₁.channels ch ⟨false, (h₁.channels ch).dem_run, 0⟩ }

/-- A channel is created in a slot, by `apply_ch_add_local` or by the command. -/
def createCh (h : Host) (ch mode : ℕ) : Host :=
  if MAX_CHANNELS ≤ ch then h
  else
    let h₁ := h.stopDem ch
    let h₂ :=
      { h₁ with channels := Function.update h₁.channels ch ⟨true, (h₁.channels ch).dem_run, 0⟩ }
    if 1 ≤ mode ∧ mode ≤ 2 then h₂.startDem ch mode else h₂

/-- The channels of one module that `bewe_mod_reconcile` starts again: those of `need` whose filter
is active. -/
def reconcileModule (h : Host) (start : String → ℕ → Bool) (id : String) : Host :=
  let need := (h.fw id).want_mask &&& ~~~(h.fw id).host_mask
  (List.range MAX_CHANNELS).foldl
    (fun h ch =>
      if need.getLsbD ch && (h.channels ch).filter_active then h.hostApplySet start id ch true
      else h) h

/-- `bewe_mod_reconcile`, as far as it starts workers. -/
def reconcile (h : Host) (start : String → ℕ → Bool) (sdr_stream_error : Bool) : Host :=
  if sdr_stream_error then h
  else
    h.reg.foldl (fun h m => if m.target_modes = 0 then h else h.reconcileModule start m.id) h

/-- The demodulator of a channel changed by something else. -/
def setAudio (h : Host) (ch : ℕ) (dem_run : Bool) (mode : ℕ) : Host :=
  let c := h.channels ch
  { h with channels := Function.update h.channels ch { c with dem_run := dem_run, mode := mode } }

/-! ## What the operations do to the bits -/

@[simp]
theorem want_setFw (h : Host) (id id' : String) (f : ModFw) (c : ℕ) :
    (h.setFw id f).want id' c = if id' = id then f.want_mask.getLsbD c else h.want id' c := by
  unfold want setFw
  by_cases he : id' = id
  · simp [he]
  · simp [he]

@[simp]
theorem running_setFw (h : Host) (id id' : String) (f : ModFw) (c : ℕ) :
    (h.setFw id f).running id' c = if id' = id then f.host_mask.getLsbD c else h.running id' c := by
  unfold running setFw
  by_cases he : id' = id
  · simp [he]
  · simp [he]

theorem want_applySet_on (h : Host) (start : String → ℕ → Bool) (id id' : String) (ch c : ℕ)
    (hch : ch < MAX_CHANNELS) :
    (h.hostApplySet start id ch true).want id' c = (h.want id' c || decide (id' = id ∧ c = ch)) := by
  have hlt : ch < 64 := Nat.lt_trans hch (by decide)
  unfold hostApplySet
  rw [if_neg (by omega)]
  by_cases hid : id' = id
  · subst hid
    by_cases hc : c = ch
    · simp [hc, hlt]
    · simp only [if_true, want_setFw, getLsbD_setBit]
      simp [hc, want]
  · simp [hid]

theorem running_applySet_on (h : Host) (start : String → ℕ → Bool) (id id' : String) (ch c : ℕ)
    (hr : (h.hostApplySet start id ch true).running id' c = true) :
    h.running id' c = true ∨ id' = id ∧ c = ch := by
  unfold hostApplySet at hr
  by_cases hmax : MAX_CHANNELS ≤ ch
  · rw [if_pos hmax] at hr
    exact Or.inl hr
  · rw [if_neg hmax] at hr
    simp only [if_true, running_setFw] at hr
    split at hr
    · rename_i hid
      subst hid
      split at hr
      · simp only [getLsbD_setBit, Bool.or_eq_true, decide_eq_true_eq] at hr
        rcases hr with hr | hr
        · exact Or.inl hr
        · exact Or.inr ⟨rfl, hr.1⟩
      · exact Or.inl hr
    · exact Or.inl hr

theorem want_applySet_off (h : Host) (start : String → ℕ → Bool) (id id' : String) (ch c : ℕ)
    (hch : ch < MAX_CHANNELS) :
    (h.hostApplySet start id ch false).want id' c
      = (h.want id' c && !decide (id' = id ∧ c = ch)) := by
  unfold hostApplySet
  rw [if_neg (by omega)]
  by_cases hid : id' = id
  · subst hid
    simp only [Bool.false_eq_true, if_false, want_setFw, if_true, getLsbD_clearBit]
    simp [want]
  · simp [hid]

theorem running_applySet_off (h : Host) (start : String → ℕ → Bool) (id id' : String) (ch c : ℕ)
    (hch : ch < MAX_CHANNELS) :
    (h.hostApplySet start id ch false).running id' c
      = (h.running id' c && !decide (id' = id ∧ c = ch)) := by
  unfold hostApplySet
  rw [if_neg (by omega)]
  by_cases hid : id' = id
  · subst hid
    simp only [Bool.false_eq_true, if_false, running_setFw, if_true, getLsbD_clearBit]
    simp [running]
  · simp [hid]

theorem hostApplySet_rest (h : Host) (start : String → ℕ → Bool) (id : String) (ch : ℕ) (on : Bool) :
    (h.hostApplySet start id ch on).reg = h.reg ∧
      (h.hostApplySet start id ch on).owners = h.owners ∧
      (h.hostApplySet start id ch on).channels = h.channels := by
  unfold hostApplySet
  split
  · exact ⟨rfl, rfl, rfl⟩
  · split <;> exact ⟨rfl, rfl, rfl⟩

theorem applyAll_rest (start : String → ℕ → Bool) (ms : List BeweModule) (ch : ℕ) (on : Bool)
    (h : Host) :
    (h.applyAll start ms ch on).reg = h.reg ∧ (h.applyAll start ms ch on).owners = h.owners ∧
      (h.applyAll start ms ch on).channels = h.channels := by
  induction ms generalizing h with
  | nil => exact ⟨rfl, rfl, rfl⟩
  | cons m ms ih =>
    obtain ⟨h₁, h₂, h₃⟩ := ih (h.hostApplySet start m.id ch on)
    obtain ⟨g₁, g₂, g₃⟩ := hostApplySet_rest h start m.id ch on
    exact ⟨h₁.trans g₁, h₂.trans g₂, h₃.trans g₃⟩

/-- A module of the list has the id. -/
def Among (ms : List BeweModule) (id : String) : Prop :=
  ∃ m ∈ ms, id = m.id

theorem want_applyAll_off (start : String → ℕ → Bool) (ms : List BeweModule) (ch : ℕ)
    (hch : ch < MAX_CHANNELS) (h : Host) (id : String) (c : ℕ) :
    (h.applyAll start ms ch false).want id c = true ↔
      h.want id c = true ∧ ¬ (c = ch ∧ Among ms id) := by
  induction ms generalizing h with
  | nil => simp [applyAll, Among]
  | cons m ms ih =>
    have hrest := ih (h.hostApplySet start m.id ch false)
    rw [want_applySet_off h start m.id id ch c hch] at hrest
    simp only [applyAll, List.foldl_cons] at hrest ⊢
    rw [hrest]
    simp only [Among, List.mem_cons, exists_eq_or_imp, Bool.and_eq_true, Bool.not_eq_true',
      decide_eq_false_iff_not]
    constructor
    · rintro ⟨⟨hb, hm⟩, hms⟩
      exact ⟨hb, fun ⟨hc, ha⟩ => ha.elim (fun hid => hm ⟨hid, hc⟩) fun hex => hms ⟨hc, hex⟩⟩
    · rintro ⟨hb, hno⟩
      exact ⟨⟨hb, fun ⟨hid, hc⟩ => hno ⟨hc, Or.inl hid⟩⟩, fun ⟨hc, hex⟩ => hno ⟨hc, Or.inr hex⟩⟩

theorem running_applyAll_off (start : String → ℕ → Bool) (ms : List BeweModule) (ch : ℕ)
    (hch : ch < MAX_CHANNELS) (h : Host) (id : String) (c : ℕ) :
    (h.applyAll start ms ch false).running id c = true ↔
      h.running id c = true ∧ ¬ (c = ch ∧ Among ms id) := by
  induction ms generalizing h with
  | nil => simp [applyAll, Among]
  | cons m ms ih =>
    have hrest := ih (h.hostApplySet start m.id ch false)
    rw [running_applySet_off h start m.id id ch c hch] at hrest
    simp only [applyAll, List.foldl_cons] at hrest ⊢
    rw [hrest]
    simp only [Among, List.mem_cons, exists_eq_or_imp, Bool.and_eq_true, Bool.not_eq_true',
      decide_eq_false_iff_not]
    constructor
    · rintro ⟨⟨hb, hm⟩, hms⟩
      exact ⟨hb, fun ⟨hc, ha⟩ => ha.elim (fun hid => hm ⟨hid, hc⟩) fun hex => hms ⟨hc, hex⟩⟩
    · rintro ⟨hb, hno⟩
      exact ⟨⟨hb, fun ⟨hid, hc⟩ => hno ⟨hc, Or.inl hid⟩⟩, fun ⟨hc, hex⟩ => hno ⟨hc, Or.inr hex⟩⟩

theorem want_applyAll_on (start : String → ℕ → Bool) (ms : List BeweModule) (ch : ℕ)
    (hch : ch < MAX_CHANNELS) (h : Host) (id : String) (c : ℕ) :
    (h.applyAll start ms ch true).want id c = true ↔
      h.want id c = true ∨ c = ch ∧ Among ms id := by
  induction ms generalizing h with
  | nil => simp [applyAll, Among]
  | cons m ms ih =>
    have hrest := ih (h.hostApplySet start m.id ch true)
    rw [want_applySet_on h start m.id id ch c hch] at hrest
    simp only [applyAll, List.foldl_cons] at hrest ⊢
    rw [hrest]
    simp only [Among, List.mem_cons, exists_eq_or_imp, Bool.or_eq_true, decide_eq_true_eq]
    tauto

theorem running_applyAll_on (start : String → ℕ → Bool) (ms : List BeweModule) (ch : ℕ) (h : Host)
    (id : String) (c : ℕ) (hr : (h.applyAll start ms ch true).running id c = true) :
    h.running id c = true ∨ c = ch ∧ Among ms id := by
  induction ms generalizing h with
  | nil => exact Or.inl hr
  | cons m ms ih =>
    rcases ih (h.hostApplySet start m.id ch true) hr with hr | ⟨hc, m', hm', hid⟩
    · rcases running_applySet_on h start m.id id ch c hr with hr | ⟨hid, hc⟩
      · exact Or.inl hr
      · exact Or.inr ⟨hc, m, List.mem_cons_self, hid⟩
    · exact Or.inr ⟨hc, m', List.mem_cons_of_mem _ hm', hid⟩

theorem onChStop_rest (h : Host) (m : BeweModule) (ch : ℕ) :
    (h.onChStop m ch).reg = h.reg ∧ (h.onChStop m ch).owners = h.owners ∧
      (h.onChStop m ch).channels = h.channels ∧
      (∀ id c, (h.onChStop m ch).want id c = h.want id c) ∧
      ∀ id c, (h.onChStop m ch).running id c = true → h.running id c = true := by
  unfold onChStop
  split
  · refine ⟨rfl, rfl, rfl, ?_, ?_⟩
    · intro id c
      simp only [hostMaskClear, want_setFw]
      split
      · rename_i hid
        rw [hid]
        rfl
      · rfl
    · intro id c hr
      simp only [hostMaskClear, running_setFw] at hr
      split at hr
      · rename_i hid
        rw [hid]
        simp only [getLsbD_clearBit, Bool.and_eq_true] at hr
        exact hr.1
      · exact hr
  · exact ⟨rfl, rfl, rfl, fun _ _ => rfl, fun _ _ hr => hr⟩

/-- Stopping the demodulator clears the intents of the channel, starts nothing, and touches no owner
and no filter. -/
theorem stopDem_spec (h : Host) (ch : ℕ) (hch : ch < MAX_CHANNELS) :
    (h.stopDem ch).reg = h.reg ∧ (h.stopDem ch).owners = h.owners ∧
      (∀ id c, (h.stopDem ch).want id c = true ↔ h.want id c = true ∧ c ≠ ch) ∧
      ∀ id c, (h.stopDem ch).running id c = true → h.running id c = true := by
  have hfold : ∀ (ms : List BeweModule) (g : Host),
      let g' := ms.foldl (fun h m => h.onChStop m ch) g
      g'.reg = g.reg ∧ g'.owners = g.owners ∧ (∀ id c, g'.want id c = g.want id c) ∧
        ∀ id c, g'.running id c = true → g.running id c = true := by
    intro ms
    induction ms with
    | nil => exact fun g => ⟨rfl, rfl, fun _ _ => rfl, fun _ _ hr => hr⟩
    | cons m ms ih =>
      intro g
      obtain ⟨h₁, h₂, h₃, h₄⟩ := ih (g.onChStop m ch)
      obtain ⟨g₁, g₂, -, g₄, g₅⟩ := onChStop_rest g m ch
      exact ⟨h₁.trans g₁, h₂.trans g₂, fun id c => (h₃ id c).trans (g₄ id c),
        fun id c hr => g₅ id c (h₄ id c hr)⟩
  obtain ⟨h₁, h₂, h₃, h₄⟩ := hfold h.reg (h.wantClearCh ch)
  have hclear : ∀ id c, (h.wantClearCh ch).want id c = true ↔ h.want id c = true ∧ c ≠ ch := by
    intro id c
    unfold wantClearCh
    rw [if_neg (by omega)]
    simp [want]
  have hrun : ∀ id c, (h.wantClearCh ch).running id c = h.running id c := by
    intro id c
    unfold wantClearCh
    rw [if_neg (by omega)]
    rfl
  have hreg : (h.wantClearCh ch).reg = h.reg ∧ (h.wantClearCh ch).owners = h.owners := by
    unfold wantClearCh
    rw [if_neg (by omega)]
    exact ⟨rfl, rfl⟩
  unfold stopDem
  simp only
  split
  · exact ⟨h₁.trans hreg.1, h₂.trans hreg.2, fun id c => by rw [← hclear, ← h₃]; rfl,
      fun id c hr => by rw [← hrun]; exact h₄ id c hr⟩
  · exact ⟨h₁.trans hreg.1, h₂.trans hreg.2, fun id c => by rw [← hclear, ← h₃],
      fun id c hr => by rw [← hrun]; exact h₄ id c hr⟩

theorem bits_of_fw {h h' : Host} (hf : h'.fw = h.fw) (id : String) (c : ℕ) :
    h'.want id c = h.want id c ∧ h'.running id c = h.running id c := by
  unfold want running
  rw [hf]
  exact ⟨rfl, rfl⟩

theorem startDem_rest (h : Host) (ch mode : ℕ) :
    (h.startDem ch mode).reg = h.reg ∧ (h.startDem ch mode).owners = h.owners ∧
      (h.startDem ch mode).fw = h.fw := by
  unfold startDem
  simp only
  split <;> exact ⟨rfl, rfl, rfl⟩

end Host

/-! ## What can happen -/

/-- What each operator last asked for on a module and a channel, since the channel was created. -/
abbrev Asked := String → ℕ → String → Option Bool

/-- HOST and the history of the SETs. -/
structure World where
  host : Host
  asked : Asked

/-- The events: a SET with its owner, a worker that ends by itself, the deletion, the edit and the
creation of a channel, a tick of the reconciliation, and a demodulator started or stopped apart from
these. -/
inductive Event
  | set (id : String) (ch : ℕ) (on : Bool) (owner : String) (start : String → ℕ → Bool)
  | exit (id : String) (ch : ℕ)
  | delete (ch : ℕ) (start : String → ℕ → Bool)
  | edit (ch mode : ℕ) (start : String → ℕ → Bool)
  | create (ch mode : ℕ)
  | reconcile (sdr_stream_error : Bool) (start : String → ℕ → Bool)
  | audio (ch : ℕ) (dem_run : Bool) (mode : ℕ)

/-- The history of a channel that is new. -/
def Asked.forget (a : Asked) (ch : ℕ) : Asked :=
  fun id c op => if c = ch then none else a id c op

/-- What an event does. A SET for a module that is not registered is ignored. -/
def Event.apply : Event → World → World
  | .set id ch on owner start, w =>
    if w.host.reg.any (fun m => m.id = id) then
      { host := w.host.hostApplySetOwned start id ch on owner
        asked := fun id' c op =>
          if id' = id ∧ c = ch ∧ op = owner then some on else w.asked id' c op }
    else w
  | .exit id ch, w => { w with host := w.host.hostMaskClear id ch }
  | .delete ch start, w =>
    if MAX_CHANNELS ≤ ch ∨ (w.host.channels ch).filter_active = false then w
    else { host := w.host.applyChDelLocal start ch, asked := w.asked.forget ch }
  | .edit ch mode start, w => { w with host := w.host.applyChEditLocal start ch mode }
  | .create ch mode, w =>
    if MAX_CHANNELS ≤ ch then w
    else { host := w.host.createCh ch mode, asked := w.asked.forget ch }
  | .reconcile err start, w => { w with host := w.host.reconcile start err }
  | .audio ch dem_run mode, w => { w with host := w.host.setAudio ch dem_run mode }

/-- Some operator's last SET of the module on the channel is "on". -/
def Wanted (w : World) (id : String) (ch : ℕ) : Prop :=
  ∃ op, w.asked id ch op = some true

/-! ## The masks follow the owners -/

/-- The intent to run agrees with the owners, and what runs is intended. -/
structure Settled (w : World) (id : String) (ch : ℕ) : Prop where
  owners : ∀ op, op ∈ w.host.owners id ch ↔ w.asked id ch op = some true
  want : w.host.want id ch = true ↔ w.host.owners id ch ≠ ∅
  running : w.host.running id ch = true → w.host.want id ch = true

/-- The operation leaves the owners and the intent of a module and channel, and starts nothing that
is not intended. -/
structure Keeps (h h' : Host) (id : String) (ch : ℕ) : Prop where
  reg : h'.reg = h.reg
  owners : h'.owners id ch = h.owners id ch
  want : h'.want id ch = h.want id ch
  running : h'.running id ch = true → h.running id ch = true ∨ h.want id ch = true

theorem Keeps.refl (h : Host) (id : String) (ch : ℕ) : Keeps h h id ch :=
  ⟨rfl, rfl, rfl, Or.inl⟩

theorem Keeps.trans {h₁ h₂ h₃ : Host} {id : String} {ch : ℕ} (h : Keeps h₁ h₂ id ch)
    (g : Keeps h₂ h₃ id ch) : Keeps h₁ h₃ id ch where
  reg := g.reg.trans h.reg
  owners := g.owners.trans h.owners
  want := g.want.trans h.want
  running := by
    intro hr
    rcases g.running hr with hr | hw
    · exact h.running hr
    · exact Or.inr (h.want ▸ hw)

theorem Settled.of_keeps {h : Host} {w : World} {id : String} {ch : ℕ} (hw : Settled w id ch)
    (hk : Keeps w.host h id ch) : Settled { w with host := h } id ch where
  owners := by
    intro op
    show op ∈ h.owners id ch ↔ _
    rw [hk.owners]
    exact hw.owners op
  want := by
    show h.want id ch = true ↔ h.owners id ch ≠ ∅
    rw [hk.want, hk.owners]
    exact hw.want
  running := by
    intro hr
    show h.want id ch = true
    rw [hk.want]
    exact (hk.running hr).elim hw.running fun hw' => hw'

theorem keeps_hostMaskClear (h : Host) (id' : String) (ch' : ℕ) (id : String) (ch : ℕ) :
    Keeps h (h.hostMaskClear id' ch') id ch where
  reg := rfl
  owners := rfl
  want := by
    simp only [Host.hostMaskClear, Host.want_setFw]
    split
    · rename_i he
      rw [he]
      rfl
    · rfl
  running := by
    intro hr
    simp only [Host.hostMaskClear, Host.running_setFw] at hr
    split at hr
    · rename_i he
      rw [he]
      simp only [getLsbD_clearBit, Bool.and_eq_true] at hr
      exact Or.inl hr.1
    · exact Or.inl hr

theorem keeps_applySet_on (h : Host) (start : String → ℕ → Bool) (id' : String) (ch' : ℕ)
    (hch : ch' < MAX_CHANNELS) (hwant : h.want id' ch' = true) (id : String) (ch : ℕ) :
    Keeps h (h.hostApplySet start id' ch' true) id ch where
  reg := (h.hostApplySet_rest start id' ch' true).1
  owners := by rw [(h.hostApplySet_rest start id' ch' true).2.1]
  want := by
    rw [h.want_applySet_on start id' id ch' ch hch]
    by_cases he : id = id' ∧ ch = ch'
    · rw [he.1, he.2, hwant]
      simp
    · simp [he]
  running := by
    intro hr
    rcases h.running_applySet_on start id' id ch' ch hr with hr | ⟨rfl, rfl⟩
    · exact Or.inl hr
    · exact Or.inr hwant

theorem keeps_reconcileModule (h : Host) (start : String → ℕ → Bool) (id' : String) (id : String)
    (ch : ℕ) : Keeps h (h.reconcileModule start id') id ch := by
  -- along the loop over the channels every intent of the module stays what it was
  have hloop : ∀ (l : List ℕ) (g : Host), (∀ c ∈ l, c < MAX_CHANNELS) →
      (∀ c, g.want id' c = h.want id' c) → ∀ id ch,
      Keeps g (l.foldl (fun g c =>
        if ((h.fw id').want_mask &&& ~~~(h.fw id').host_mask).getLsbD c
            && (g.channels c).filter_active then g.hostApplySet start id' c true else g) g) id ch := by
    intro l
    induction l with
    | nil => exact fun g _ _ id ch => Keeps.refl g id ch
    | cons c l ih =>
      intro g hl hg id ch
      rw [List.foldl_cons]
      have hlt := hl c List.mem_cons_self
      split
      · rename_i hneed
        have hwant : g.want id' c = true := by
          simp only [BitVec.getLsbD_and, Bool.and_eq_true] at hneed
          rw [hg c]
          exact hneed.1.1
        have hk := keeps_applySet_on g start id' c hlt hwant
        have hg' : ∀ c', (g.hostApplySet start id' c true).want id' c' = h.want id' c' :=
          fun c' => ((hk id' c').want).trans (hg c')
        exact (hk id ch).trans
          (ih _ (fun c' hc' => hl c' (List.mem_cons_of_mem _ hc')) hg' id ch)
      · exact ih g (fun c' hc' => hl c' (List.mem_cons_of_mem _ hc')) hg id ch
  exact hloop _ h (fun c hc => List.mem_range.mp hc) (fun _ => rfl) id ch

theorem keeps_reconcile (h : Host) (start : String → ℕ → Bool) (err : Bool) (id : String) (ch : ℕ) :
    Keeps h (h.reconcile start err) id ch := by
  have hloop : ∀ (ms : List BeweModule) (g : Host),
      Keeps g (ms.foldl
        (fun h m => if m.target_modes = 0 then h else h.reconcileModule start m.id) g) id ch := by
    intro ms
    induction ms with
    | nil => exact fun g => Keeps.refl g id ch
    | cons m ms ih =>
      intro g
      rw [List.foldl_cons]
      split
      · exact ih g
      · exact (keeps_reconcileModule g start m.id id ch).trans (ih _)
  unfold Host.reconcile
  split
  · exact Keeps.refl h id ch
  · exact hloop h.reg h

theorem editDem_spec (h : Host) (ch mode : ℕ) (hch : ch < MAX_CHANNELS) :
    (h.editDem ch mode).reg = h.reg ∧ (h.editDem ch mode).owners = h.owners ∧
      (∀ id c, (h.editDem ch mode).want id c = true ↔
        h.want id c = true ∧ ¬ (c = ch ∧ h.editStops ch mode = true)) ∧
      ∀ id c, (h.editDem ch mode).running id c = true → h.running id c = true := by
  obtain ⟨s₁, s₂, s₃, s₄⟩ := h.stopDem_spec ch hch
  unfold Host.editDem Host.editStops
  by_cases hmode : mode ≤ 2 ∧ (h.channels ch).mode ≠ mode
  · rw [if_pos hmode]
    have hst : (decide (mode ≤ 2) && decide ((h.channels ch).mode ≠ mode)
        || (h.channels ch).dem_run) = true := by simp [hmode.1, hmode.2]
    rw [hst]
    simp only
    split
    · obtain ⟨d₁, d₂, d₃⟩ := ((h.stopDem ch).setMode ch mode).startDem_rest ch mode
      refine ⟨d₁.trans s₁, d₂.trans s₂, fun id c => ?_, fun id c hr => ?_⟩
      · rw [(Host.bits_of_fw d₃ id c).1]
        exact (s₃ id c).trans (by simp)
      · rw [(Host.bits_of_fw d₃ id c).2] at hr
        exact s₄ id c hr
    · exact ⟨s₁, s₂, fun id c => (s₃ id c).trans (by simp), s₄⟩
  · rw [if_neg hmode]
    split
    · rename_i hrun
      obtain ⟨d₁, d₂, d₃⟩ := (h.stopDem ch).startDem_rest ch (h.channels ch).mode
      refine ⟨d₁.trans s₁, d₂.trans s₂, fun id c => ?_, fun id c hr => ?_⟩
      · rw [(Host.bits_of_fw d₃ id c).1, hrun]
        exact (s₃ id c).trans (by simp)
      · rw [(Host.bits_of_fw d₃ id c).2] at hr
        exact s₄ id c hr
    · rename_i hrun
      have hst : (decide (mode ≤ 2) && decide ((h.channels ch).mode ≠ mode)
          || (h.channels ch).dem_run) = false := by
        have hno : (decide (mode ≤ 2) && decide ((h.channels ch).mode ≠ mode)) = false := by
          simpa using hmode
        rw [hno]
        simpa using hrun
      rw [hst]
      exact ⟨rfl, rfl, fun id c => by simp, fun _ _ hr => hr⟩

/-- An edit keeps a module's intent unless it stops the demodulator while the worker is wanted and
down. -/
theorem keeps_edit (h : Host) (start : String → ℕ → Bool) (ch' mode : ℕ) (id : String) (ch : ℕ)
    (hrun : h.running id ch = true → h.want id ch = true)
    (hclear : ch' = ch → h.editStops ch mode = true → h.want id ch = true →
      Host.Among (h.wasrun ch) id) :
    Keeps h (h.applyChEditLocal start ch' mode) id ch := by
  unfold Host.applyChEditLocal
  split
  · exact Keeps.refl h id ch
  · rename_i hguard
    have hch : ch' < MAX_CHANNELS := by
      by_contra hge
      exact hguard (Or.inl (by omega))
    simp only
    set ms := h.wasrun ch' with hms
    set h₁ := h.applyAll start ms ch' false with hh₁
    obtain ⟨a₁, a₂, a₃⟩ := h.applyAll_rest start ms ch' false
    obtain ⟨e₁, e₂, e₃, e₄⟩ := editDem_spec h₁ ch' mode hch
    obtain ⟨b₁, b₂, -⟩ := (h₁.editDem ch' mode).applyAll_rest start ms ch' true
    have hstops : h₁.editStops ch' mode = h.editStops ch' mode := by
      unfold Host.editStops
      rw [hh₁, a₃]
    -- a worker that was running was intended
    have hamong : ch = ch' → Host.Among ms id → h.want id ch = true := by
      rintro rfl ⟨m, hm, rfl⟩
      rw [hms, Host.wasrun, List.mem_filter, Bool.and_eq_true] at hm
      exact hrun hm.2.2
    refine ⟨b₁.trans (e₁.trans a₁), by rw [b₂, e₂, a₂], ?_, ?_⟩
    · rw [Bool.eq_iff_iff, Host.want_applyAll_on start ms ch' hch, e₃, hstops,
        Host.want_applyAll_off start ms ch' hch]
      constructor
      · rintro (⟨⟨hw, -⟩, -⟩ | ⟨hc, ha⟩)
        · exact hw
        · exact hamong hc ha
      · intro hw
        by_cases ha : ch = ch' ∧ Host.Among ms id
        · exact Or.inr ha
        · refine Or.inl ⟨⟨hw, ha⟩, ?_⟩
          rintro ⟨rfl, hs⟩
          exact ha ⟨rfl, hclear rfl hs hw⟩
    · intro hr
      rcases Host.running_applyAll_on start ms ch' _ id ch hr with hr | ⟨hc, ha⟩
      · have hr' := (Host.running_applyAll_off start ms ch' hch h id ch).mp (e₄ id ch hr)
        exact Or.inl hr'.1
      · exact Or.inr (hamong hc ha)

/-- The condition under which an event keeps the masks of a module and channel in agreement: the
last owner does not leave while the worker is down, the channel is not deleted or created while it
has owners, and an edit that stops the demodulator does not find the worker wanted and down. -/
def Event.clear (id : String) (ch : ℕ) : Event → World → Bool
  | .set id' ch' on owner _, w =>
    !(decide (id' = id) && decide (ch' = ch) && !on && decide (w.host.owners id ch = {owner}))
      || w.host.running id ch
  | .delete ch' _, w | .create ch' _, w => decide (ch' ≠ ch) || decide (w.host.owners id ch = ∅)
  | .edit ch' mode _, w =>
    decide (ch' ≠ ch) || !w.host.editStops ch mode || !w.host.want id ch
      || (w.host.wasrun ch).any fun m => id = m.id
  | _, _ => true

/-- The event is no SET without an owner for the module and channel. -/
def Event.owned (id : String) (ch : ℕ) : Event → Bool
  | .set id' ch' _ owner _ => decide (id' ≠ id) || decide (ch' ≠ ch) || decide (owner ≠ "")
  | _ => true

/-- A step of HOST in which the module and channel are controlled by owned SETs only. -/
def OwnedStep (id : String) (ch : ℕ) (w : World) (e : Event) (w' : World) : Prop :=
  e.owned id ch = true ∧ w' = e.apply w

/-- Such a step, under the condition. -/
def ClearStep (id : String) (ch : ℕ) (w : World) (e : Event) (w' : World) : Prop :=
  e.clear id ch w = true ∧ OwnedStep id ch w e w'

/-- HOST as it starts: nothing runs, nothing is wanted, nobody has asked. -/
def World.start (reg : List BeweModule) (channels : ℕ → Channel) : World where
  host := ⟨reg, fun _ => ⟨0, 0⟩, fun _ _ => ∅, channels⟩
  asked := fun _ _ _ => none

theorem keeps_applySet_other (h : Host) (start : String → ℕ → Bool) (id' : String) (ch' : ℕ)
    (on : Bool) (id : String) (ch : ℕ) (hne : ¬ (id = id' ∧ ch = ch')) :
    Keeps h (h.hostApplySet start id' ch' on) id ch := by
  obtain ⟨hreg, howners, -⟩ := h.hostApplySet_rest start id' ch' on
  rcases Nat.lt_or_ge ch' MAX_CHANNELS with hlt | hge
  · cases on with
    | true =>
      refine ⟨hreg, by rw [howners], ?_, fun hr => ?_⟩
      · rw [h.want_applySet_on start id' id ch' ch hlt]
        simp [hne]
      · exact Or.inl ((h.running_applySet_on start id' id ch' ch hr).resolve_right hne)
    | false =>
      refine ⟨hreg, by rw [howners], ?_, fun hr => ?_⟩
      · rw [h.want_applySet_off start id' id ch' ch hlt]
        simp [hne]
      · rw [h.running_applySet_off start id' id ch' ch hlt, Bool.and_eq_true] at hr
        exact Or.inl hr.1
  · unfold Host.hostApplySet
    rw [if_pos hge]
    exact Keeps.refl h id ch

/-- An owned SET keeps the masks in agreement, unless the last owner leaves while the worker is
down. -/
theorem settled_setOwned (w : World) (id : String) (ch : ℕ) (hch : ch < MAX_CHANNELS)
    (hw : Settled w id ch) (on : Bool) (owner : String) (start : String → ℕ → Bool)
    (howner : owner ≠ "")
    (hclear : on = false → w.host.owners id ch = {owner} → w.host.running id ch = true) :
    Settled
      { host := w.host.hostApplySetOwned start id ch on owner
        asked := fun id' c op =>
          if id' = id ∧ c = ch ∧ op = owner then some on else w.asked id' c op } id ch := by
  unfold Host.hostApplySetOwned
  rw [if_neg howner]
  set s := if on then insert owner (w.host.owners id ch) else (w.host.owners id ch).erase owner
    with hs
  set h₁ : Host := w.host.setOwners id ch s with hh₁
  have hown : h₁.owners id ch = s := by simp [hh₁, Host.setOwners]
  have hmem : ∀ op, op ∈ s ↔ (if op = owner then some on else w.asked id ch op) = some true := by
    intro op
    rw [hs]
    cases on <;> by_cases hop : op = owner <;> simp [hop, hw.owners]
  -- what the switch leaves, whichever way it goes
  have hset : ∀ now, now = decide (s ≠ ∅) →
      (h₁.hostApplySet start id ch now).owners id ch = s ∧
      ((h₁.hostApplySet start id ch now).want id ch = true ↔ s ≠ ∅) ∧
      ((h₁.hostApplySet start id ch now).running id ch = true →
        (h₁.hostApplySet start id ch now).want id ch = true) := by
    intro now hnow
    refine ⟨by rw [(h₁.hostApplySet_rest start id ch now).2.1, hown], ?_⟩
    cases now with
    | true =>
      rw [h₁.want_applySet_on start id id ch ch hch]
      simpa using hnow.symm
    | false =>
      rw [h₁.want_applySet_off start id id ch ch hch, h₁.running_applySet_off start id id ch ch hch]
      simpa using hnow.symm
  -- without a switch the running mask agrees with the owners already
  have hkeep : decide (s ≠ ∅) = h₁.running id ch →
      (h₁.want id ch = true ↔ s ≠ ∅) ∧ (h₁.running id ch = true → h₁.want id ch = true) := by
    intro heq
    have hrun : h₁.running id ch = w.host.running id ch := rfl
    have hwant : h₁.want id ch = w.host.want id ch := rfl
    rw [hrun] at heq ⊢
    rw [hwant]
    refine ⟨?_, hw.running⟩
    constructor
    · intro hwt hempty
      have hdown : w.host.running id ch = false := by rw [← heq]; simp [hempty]
      have hne := hw.want.mp hwt
      cases on with
      | true => simp [hs] at hempty
      | false =>
        have hlast : w.host.owners id ch = {owner} := by
          have herase : (w.host.owners id ch).erase owner = ∅ := by rw [← hempty, hs]; rfl
          rcases (Finset.erase_eq_empty_iff _ _).mp herase with h0 | h1
          · exact absurd h0 hne
          · exact h1
        rw [hclear rfl hlast] at hdown
        exact absurd hdown (by simp)
    · intro hne
      exact hw.running (by rw [← heq]; simp [hne])
  simp only
  split
  · obtain ⟨ho, hwant, hrun⟩ := hset _ rfl
    refine ⟨fun op => ?_, ?_, hrun⟩
    · simp only [true_and]
      rw [ho]
      exact hmem op
    · rw [ho]
      exact hwant
  · rename_i heq
    obtain ⟨hwant, hrun⟩ := hkeep (not_ne_iff.mp heq)
    refine ⟨fun op => ?_, ?_, hrun⟩
    · show op ∈ h₁.owners id ch ↔ _
      rw [hown]
      simpa using hmem op
    · show _ ↔ h₁.owners id ch ≠ ∅
      rw [hown]
      exact hwant

/-- When a channel without owners is deleted or created, its intents go and its history starts
anew. -/
theorem settled_forget (w : World) (id : String) (ch : ℕ) (hw : Settled w id ch) (ch' : ℕ) (h' : Host)
    (howners : h'.owners = w.host.owners)
    (hwant : h'.want id ch = true ↔ w.host.want id ch = true ∧ ch ≠ ch')
    (hrun : h'.running id ch = true → w.host.running id ch = true)
    (hempty : ch' = ch → w.host.owners id ch = ∅) :
    Settled ⟨h', w.asked.forget ch'⟩ id ch := by
  rcases Decidable.em (ch' = ch) with hch | hne
  · -- nobody owns the channel, so nothing was intended and nothing ran
    have h0 := hempty hch
    have hnot : ¬ w.host.want id ch = true := fun h => hw.want.mp h h0
    refine ⟨fun op => ?_, ?_, fun hr => absurd (hw.running (hrun hr)) hnot⟩
    · simp [howners, h0, Asked.forget, hch]
    · simp [hwant, howners, h0, hnot]
  · refine ⟨fun op => ?_, ?_, fun hr => ?_⟩
    · have hask : w.asked.forget ch' id ch op = w.asked id ch op := by
        simp [Asked.forget, Ne.symm hne]
      simp only [howners, hask]
      exact hw.owners op
    · simp only [hwant, howners, hw.want]
      simp [Ne.symm hne]
    · exact hwant.mpr ⟨hw.running (hrun hr), Ne.symm hne⟩

theorem delete_spec (h : Host) (start : String → ℕ → Bool) (ch' : ℕ) (id : String) (ch : ℕ)
    (hch : ch' < MAX_CHANNELS) (hact : (h.channels ch').filter_active = true) :
    (h.applyChDelLocal start ch').owners = h.owners ∧
      (h.applyChDelLocal start ch').reg = h.reg ∧
      ((h.applyChDelLocal start ch').want id ch = true ↔ h.want id ch = true ∧ ch ≠ ch') ∧
      ((h.applyChDelLocal start ch').running id ch = true → h.running id ch = true) := by
  have hguard : ¬ (MAX_CHANNELS ≤ ch' ∨ (h.channels ch').filter_active = false) := by
    rw [hact]
    simpa using hch
  obtain ⟨a₁, a₂, -⟩ := h.applyAll_rest start (h.wasrun ch') ch' false
  obtain ⟨s₁, s₂, s₃, s₄⟩ := (h.applyAll start (h.wasrun ch') ch' false).stopDem_spec ch' hch
  have hoff := h.want_applyAll_off start (h.wasrun ch') ch' hch id ch
  have hroff := h.running_applyAll_off start (h.wasrun ch') ch' hch id ch
  unfold Host.applyChDelLocal
  rw [if_neg hguard]
  refine ⟨s₂.trans a₂, s₁.trans a₁, ?_, fun hr => (hroff.mp (s₄ id ch hr)).1⟩
  refine (s₃ id ch).trans ?_
  rw [hoff]
  constructor
  · rintro ⟨⟨hw, -⟩, hne⟩
    exact ⟨hw, hne⟩
  · rintro ⟨hw, hne⟩
    exact ⟨⟨hw, fun h => hne h.1⟩, hne⟩

theorem create_spec (h : Host) (ch' mode : ℕ) (id : String) (ch : ℕ) (hch : ch' < MAX_CHANNELS) :
    (h.createCh ch' mode).owners = h.owners ∧ (h.createCh ch' mode).reg = h.reg ∧
      ((h.createCh ch' mode).want id ch = true ↔ h.want id ch = true ∧ ch ≠ ch') ∧
      ((h.createCh ch' mode).running id ch = true → h.running id ch = true) := by
  obtain ⟨s₁, s₂, s₃, s₄⟩ := h.stopDem_spec ch' hch
  unfold Host.createCh
  rw [if_neg (by omega)]
  simp only
  split
  · obtain ⟨d₁, d₂, d₃⟩ := Host.startDem_rest
      { h.stopDem ch' with
        channels := Function.update (h.stopDem ch').channels ch'
          ⟨true, ((h.stopDem ch').channels ch').dem_run, 0⟩ } ch' mode
    refine ⟨d₂.trans s₂, d₁.trans s₁, ?_, fun hr => ?_⟩
    · rw [(Host.bits_of_fw d₃ id ch).1]
      exact s₃ id ch
    · rw [(Host.bits_of_fw d₃ id ch).2] at hr
      exact s₄ id ch hr
  · exact ⟨s₂, s₁, s₃ id ch, s₄ id ch⟩

theorem reg_setOwned (h : Host) (start : String → ℕ → Bool) (id : String) (ch : ℕ) (on : Bool)
    (owner : String) : (h.hostApplySetOwned start id ch on owner).reg = h.reg := by
  unfold Host.hostApplySetOwned
  split
  · exact (h.hostApplySet_rest start id ch on).1
  · generalize (if on then insert owner (h.owners id ch) else (h.owners id ch).erase owner) = s
    simp only
    split
    · exact (Host.hostApplySet_rest _ start id ch _).1
    · rfl

theorem keeps_setOwned_other (h : Host) (start : String → ℕ → Bool) (id' : String) (ch' : ℕ)
    (on : Bool) (owner : String) (id : String) (ch : ℕ) (hne : ¬ (id = id' ∧ ch = ch')) :
    Keeps h (h.hostApplySetOwned start id' ch' on owner) id ch := by
  have howners : ∀ s, Keeps h (h.setOwners id' ch' s) id ch := by
    intro s
    refine ⟨rfl, ?_, rfl, Or.inl⟩
    unfold Host.setOwners
    by_cases hid : id = id'
    · subst hid
      simp [Function.update_of_ne (fun hch => hne ⟨rfl, hch⟩)]
    · simp [Function.update_of_ne hid]
  unfold Host.hostApplySetOwned
  split
  · exact keeps_applySet_other h start id' ch' on id ch hne
  · generalize (if on then insert owner (h.owners id' ch') else (h.owners id' ch').erase owner) = s
    simp only
    split
    · exact (howners s).trans (keeps_applySet_other _ start id' ch' _ id ch hne)
    · exact howners s

/-- Every step under the condition keeps the masks of the module and channel in agreement, and the
registered modules. -/
theorem settled_step (id : String) (ch : ℕ) (hch : ch < MAX_CHANNELS) (w : World) (e : Event)
    (w' : World) (hstep : ClearStep id ch w e w') (hreg : w.host.reg.any (fun m => m.id = id))
    (hw : Settled w id ch) :
    Settled w' id ch ∧ w'.host.reg.any (fun m => m.id = id) := by
  obtain ⟨hclear, howned, rfl⟩ := hstep
  cases e with
  | set id' ch' on owner start =>
    simp only [Event.apply]
    split
    · refine ⟨?_, by simpa only [reg_setOwned] using hreg⟩
      by_cases hsame : id' = id ∧ ch' = ch
      · obtain ⟨rfl, rfl⟩ := hsame
        have hown : owner ≠ "" := by simpa [Event.owned] using howned
        refine settled_setOwned w id' ch' hch hw on owner start hown fun hoff hlast => ?_
        simpa [Event.clear, hoff, hlast] using hclear
      · have hne : ¬ (id = id' ∧ ch = ch') := fun h => hsame ⟨h.1.symm, h.2.symm⟩
        have hset := hw.of_keeps (keeps_setOwned_other w.host start id' ch' on owner id ch hne)
        refine ⟨fun op => ?_, hset.want, hset.running⟩
        simp only
        rw [if_neg (fun h => hne ⟨h.1, h.2.1⟩)]
        exact hset.owners op
    · exact ⟨hw, hreg⟩
  | exit id' ch' =>
    exact ⟨hw.of_keeps (keeps_hostMaskClear w.host id' ch' id ch), hreg⟩
  | delete ch' start =>
    simp only [Event.apply]
    split
    · exact ⟨hw, hreg⟩
    · rename_i hguard
      have hlt : ch' < MAX_CHANNELS := by
        by_contra hge
        exact hguard (Or.inl (by omega))
      have hact : (w.host.channels ch').filter_active = true := by
        simpa using fun h => hguard (Or.inr h)
      obtain ⟨d₁, d₂, d₃, d₄⟩ := delete_spec w.host start ch' id ch hlt hact
      refine ⟨settled_forget w id ch hw ch' _ d₁ d₃ d₄ fun hc => ?_, by simpa only [d₂] using hreg⟩
      simpa [Event.clear, hc] using hclear
  | edit ch' mode start =>
    have hk := keeps_edit w.host start ch' mode id ch hw.running (by
      intro hc hs hwant
      have h := hclear
      simp only [Event.clear, hc, hs, hwant, ne_eq, not_true_eq_false, decide_false, Bool.false_or,
        Bool.not_true, List.any_eq_true, decide_eq_true_eq] at h
      exact h)
    exact ⟨hw.of_keeps hk, by simpa only [Event.apply, hk.reg] using hreg⟩
  | create ch' mode =>
    simp only [Event.apply]
    split
    · exact ⟨hw, hreg⟩
    · rename_i hguard
      obtain ⟨c₁, c₂, c₃, c₄⟩ := create_spec w.host ch' mode id ch (by omega)
      refine ⟨settled_forget w id ch hw ch' _ c₁ c₃ c₄ fun hc => ?_, by simpa only [c₂] using hreg⟩
      simpa [Event.clear, hc] using hclear
  | reconcile err start =>
    have hk := keeps_reconcile w.host start err id ch
    exact ⟨hw.of_keeps hk, by simpa only [Event.apply, hk.reg] using hreg⟩
  | audio ch' dem_run mode =>
    exact ⟨hw.of_keeps ⟨rfl, rfl, rfl, Or.inl⟩, hreg⟩

/-- A registered module that only owned SETs control on a channel. In every run in which no last
operator leaves while the worker is down, the channel is not deleted or created while it has owners,
and no edit that stops the demodulator finds the worker wanted and down, the intent is there exactly
when some operator's last SET since the channel was created is "on"; and then only does the worker
run, or does a reconciliation start it. -/
theorem want_iff_wanted_of_run (reg : List BeweModule) (channels : ℕ → Channel) (id : String) (ch : ℕ)
    (hid : reg.any (fun m => m.id = id)) (hch : ch < MAX_CHANNELS) {es : List Event} {w : World}
    (h : Run (ClearStep id ch) (World.start reg channels) es w) :
    (w.host.want id ch = true ↔ Wanted w id ch) ∧
      (w.host.running id ch = true → Wanted w id ch) ∧
      ∀ start err, (w.host.reconcile start err).running id ch = true → Wanted w id ch := by
  have hstart : Settled (World.start reg channels) id ch :=
    ⟨fun op => by simp [World.start], by simp [World.start, Host.want],
      fun hr => by simp [World.start, Host.running] at hr⟩
  obtain ⟨hw, -⟩ := h.invariant
    (P := fun w => Settled w id ch ∧ w.host.reg.any (fun m => m.id = id))
    (fun w e w' hs hp => settled_step id ch hch w e w' hs hp.2 hp.1) ⟨hstart, hid⟩
  have hwanted : w.host.want id ch = true ↔ Wanted w id ch := by
    rw [hw.want, ← Finset.nonempty_iff_ne_empty]
    exact exists_congr hw.owners
  refine ⟨hwanted, fun hr => hwanted.mp (hw.running hr), fun start err hr => ?_⟩
  have hk := keeps_reconcile w.host start err id ch
  rcases hk.running hr with hr | hwt
  · exact hwanted.mp (hw.running hr)
  · exact hwanted.mp hwt

/-- The events of a list one after another. -/
def World.after (w : World) (es : List Event) : World :=
  es.foldl (fun w e => e.apply w) w

theorem run_of_clearRun (id : String) (ch : ℕ) (es : List Event) (w : World)
    (h : follows (fun e w => e.clear id ch w && e.owned id ch) Event.apply w es = true) :
    Run (ClearStep id ch) w es (w.after es) :=
  run_of_follows _ (fun e w hstep => by
    rw [Bool.and_eq_true] at hstep
    exact ⟨hstep.1, hstep.2, rfl⟩) es w h

theorem run_of_owned (id : String) (ch : ℕ) (es : List Event) (w : World)
    (h : follows (fun e _ => e.owned id ch) Event.apply w es = true) :
    Run (OwnedStep id ch) w es (w.after es) :=
  run_of_follows _ (fun _ _ hstep => ⟨hstep, rfl⟩) es w h

/-- One registered module, as the classifier is. -/
def amc : BeweModule := ⟨"amc", 7, true⟩

/-- Two operators switch the classifier on, the worker ends, is started again, and both leave. -/
def turnTaking : List Event :=
  [.set "amc" 3 true "kim" fun _ _ => true, .set "amc" 3 true "lee" fun _ _ => true,
   .exit "amc" 3, .reconcile false fun _ _ => true,
   .set "amc" 3 false "kim" fun _ _ => true, .set "amc" 3 false "lee" fun _ _ => true]

/-- The masks agree with what the two asked for. -/
theorem want_iff_wanted_turnTaking :
    let w := (World.start [amc] fun _ => ⟨true, false, 0⟩).after turnTaking
    (w.host.want "amc" 3 = true ↔ Wanted w "amc" 3) ∧
      (w.host.running "amc" 3 = true → Wanted w "amc" 3) ∧
      ∀ start err, (w.host.reconcile start err).running "amc" 3 = true → Wanted w "amc" 3 :=
  want_iff_wanted_of_run [amc] (fun _ => ⟨true, false, 0⟩) "amc" 3 (by decide) (by decide)
    (run_of_clearRun "amc" 3 turnTaking _ (by decide))

/-- The last operator leaves after the worker has ended: the intent stays, and the next
reconciliation starts a worker that nobody wants. -/
theorem want_not_wanted :
    ¬ ∀ (reg : List BeweModule) (channels : ℕ → Channel) (id : String) (ch : ℕ)
        (es : List Event) (w : World),
      reg.any (fun m => m.id = id) → ch < MAX_CHANNELS →
      Run (OwnedStep id ch) (World.start reg channels) es w →
      (w.host.want id ch = true ↔ Wanted w id ch) := by
  intro hclaim
  set es : List Event :=
    [.set "amc" 3 true "kim" fun _ _ => true, .exit "amc" 3,
     .set "amc" 3 false "kim" fun _ _ => true] with hes
  set w := (World.start [amc] fun _ => ⟨true, false, 0⟩).after es with hw
  have hrun := run_of_owned "amc" 3 es (World.start [amc] fun _ => ⟨true, false, 0⟩)
    (by decide)
  have hiff := hclaim [amc] _ "amc" 3 es w (by decide) (by decide) hrun
  have hwant : w.host.want "amc" 3 = true := by
    rw [hw, hes]
    decide
  obtain ⟨op, hop⟩ := hiff.mp hwant
  have hask : w.asked "amc" 3 op = if op = "kim" then some false else none := by
    rw [hw, hes]
    simp only [World.after, List.foldl_cons, List.foldl_nil, Event.apply, World.start]
    by_cases hkim : op = "kim" <;> simp [hkim, amc, reg_setOwned, Host.hostMaskClear, Host.setFw]
  rw [hask] at hop
  split at hop <;> simp at hop

end Bewe.ModulePipe
