/-
SoundSequencer.Proofs.MachineCalls — the calls of a host on a machine.

* `Machine.forTracksWhere` and its like go from slot to slot. While they work on the
  tracks of one slot, it answers for all that it listed at first, even for those that
  leave it meanwhile.
* `Machine.perform` makes one call, `Machine.run` several.
* `faultless_throughout`: a machine gets through every run on an admitted module that
  fades between volumes that are not negative, and ends where the engine ends.
-/
import SoundSequencer.Proofs.MachineStarts

namespace SoundSequencer

namespace Engine

variable {σ : Type}

theorem slots_size_forTracksOf {f : Engine σ → Nat → Engine σ}
    (hf : ∀ e i, (f e i).slots.size = e.slots.size) (e : Engine σ) (s : Nat) :
    (e.forTracksOf s f).slots.size = e.slots.size :=
  foldl_keeps (fun (_ : List Nat) (d : Engine σ) => d.slots.size = e.slots.size)
    (fun _ _ d hd => (hf d _).trans hd) _ e rfl

theorem slots_size_playNote [SoundChip σ] (e : Engine σ) (i : Nat) (patchVoice : UInt16)
    (note velocity : UInt8) :
    (e.playNote i patchVoice note velocity).slots.size = e.slots.size := by
  rcases playNote_eq e i patchVoice note velocity with heq | ⟨-, v, -, heq⟩
  · rw [heq]
  · rw [heq, (kept_startVoice _ v i _ _ _).slots_size, (kept_freeVoice e v).slots_size]

/-- A slot counts no more playing tracks than a sequence can have. -/
theorem Firm.tracksPlaying_le {held : Nat → Nat → Prop} {e : Engine σ} (h : Firm held e) {s : Nat}
    (hs : s < e.slots.size) : (e.slot s).tracksPlaying ≤ maxTracksPerSequence := by
  have hroom : (e.slot s).tracksPlaying + 0 ≤ _ := h.paced.room s [] List.nodup_nil nofun
  rw [h.seated.wide s hs] at hroom
  exact Nat.le_trans hroom h.steady.accepted.widestSequence_le

end Engine

namespace Machine

open Engine

variable {σ : Type} {held : Nat → Nat → Prop} {e : Engine σ}

/-! ## Slot by slot -/

/-- Work on every slot, one after the other. The work may carry more than the engine. -/
theorem foldlM_slots {α : Type} (engine : α → Engine σ) {f : α → Nat → Except Fault α}
    {g : α → Nat → α}
    (hstep : ∀ a s, Firm (engine a).listed (engine a) → s < (engine a).slots.size →
      f a s = .ok (g a s) ∧ Firm (engine (g a s)).listed (engine (g a s)))
    (hsize : ∀ a s, (engine (g a s)).slots.size = (engine a).slots.size)
    {a : α} (h : Firm (engine a).listed (engine a)) :
    (engine a).slotIds.foldlM f a = .ok ((engine a).slotIds.foldl g a) ∧
      Firm (engine ((engine a).slotIds.foldl g a)).listed
        (engine ((engine a).slotIds.foldl g a)) := by
  refine (foldlM_eq (fun l b => Firm (engine b).listed (engine b) ∧
    ∀ s ∈ l, s < (engine b).slots.size) (fun s l b hall => ?_) _ a
      ⟨h, fun s hs => List.mem_range.mp hs⟩).imp id And.left
  obtain ⟨hrun, hfirm⟩ := hstep b s hall.1 (hall.2 s List.mem_cons_self)
  refine ⟨hrun, hfirm, fun t ht => ?_⟩
  rw [hsize]
  exact hall.2 t (List.mem_cons_of_mem s ht)

/-- Work on every track of every active slot that satisfies `q`. -/
def forTracksWhere (e : Engine σ) (q : Slot → Bool)
    (f : Engine σ → Nat → Except Fault (Engine σ)) : Except Fault (Engine σ) :=
  e.slotIds.foldlM (fun e s => do
    let slot ← get e.slots s
    if slot.active && q slot then forTracksOf e s f else return e) e

theorem forTracksWhere_eq (h : Firm e.listed e) (q : Slot → Bool)
    {f : Engine σ → Nat → Except Fault (Engine σ)} {g : Engine σ → Nat → Engine σ}
    (hstep : ∀ held d s i, Firm held d → held s i → f d i = .ok (g d i) ∧ Firm held (g d i))
    (hsize : ∀ d i, (g d i).slots.size = d.slots.size) :
    forTracksWhere e q f = .ok (e.forTracksWhere q g) ∧
      Firm (e.forTracksWhere q g).listed (e.forTracksWhere q g) := by
  refine foldlM_slots id (fun d s hfirm hs => ?_) (fun d s => ?_) h
  · dsimp only [id] at hfirm hs ⊢
    rw [get_slot hs, ok_bind]
    split
    · obtain ⟨hrun, hfirm'⟩ := forTracksOf_eq hfirm hs fun d' i hd hi =>
        hstep d.listed d' s i hd hi
      exact ⟨hrun, hfirm'.rest⟩
    · exact ⟨rfl, hfirm⟩
  · dsimp only [id]
    split
    · exact slots_size_forTracksOf hsize d s
    · rfl

/-! ## Stopping and pausing -/

/-- Ends every active slot that satisfies `q`. -/
def endWhere (e : Engine σ) (q : Slot → Bool) : Except Fault (Engine σ) :=
  forTracksWhere e q turnOff

theorem endWhere_eq (h : Firm e.listed e) (q : Slot → Bool) :
    endWhere e q = .ok (e.forTracksWhere q Engine.turnOff) ∧
      Firm (e.forTracksWhere q Engine.turnOff).listed (e.forTracksWhere q Engine.turnOff) :=
  forTracksWhere_eq h q
    (fun _ _ s i hd hi => ⟨Machine.turnOff_eq hd (hd.paced.lt_size s i hi), hd.turnOff i⟩)
    fun d i => (kept_turnOff d i).slots_size

/-- Releases the handle of a slot. -/
def releaseHandle (e : Engine σ) (slot : Nat) : Except Fault (Engine σ) :=
  if (e.slot slot).active && (e.slot slot).handled then
    forTracksOf (e.modifySlot slot fun s => { s with handled := false }) slot fun e i => do
      let _ ← get e.tracks i
      turnOff (e.modifyTrack i Track.unhandled) i
  else return e

theorem releaseHandle_eq (h : Firm held e) (slot : Nat) :
    releaseHandle e slot = .ok (e.releaseHandle slot) ∧ Firm held (e.releaseHandle slot) := by
  unfold releaseHandle Engine.releaseHandle
  split
  · next hactive =>
    have hslot : slot < e.slots.size := lt_size_of_active (Bool.and_eq_true_iff.mp hactive).1
    have hfree : Firm held (e.modifySlot slot fun s => { s with handled := false }) :=
      h.of_places (samePlaces_releaseSlot e slot) (h.manned.of_voices rfl rfl)
        (h.steady.kept (kept_modifySlot e slot _))
    refine forTracksOf_eq hfree (by simpa [modifySlot] using hslot) fun d i hd hi => ?_
    have hlt := hd.paced.lt_size slot i hi
    have hunhandled := hd.unhandle i
    rw [get_track hlt, ok_bind,
      Machine.turnOff_eq hunhandled (by simpa [modifyTrack] using hlt)]
    exact ⟨rfl, hunhandled.turnOff i⟩
  · exact ⟨rfl, h⟩

/-- Pauses a track. -/
def pauseTrack (e : Engine σ) (i : Nat) : Except Fault (Engine σ) := do
  let _ ← lookUp e i
  return e.pauseTrack i

theorem pauseTrack_eq (h : Firm held e) {i : Nat} (hi : i < e.tracks.size) :
    pauseTrack e i = .ok (e.pauseTrack i) := by
  unfold pauseTrack
  rw [lookUp_eq h hi]
  rfl

/-- Pauses every slot that plays a sequence. -/
def pause (e : Engine σ) (sequence : Nat) (mute : Bool) : Except Fault (Engine σ) :=
  forTracksWhere e (·.sequence == sequence) fun e i => do
    let e ← pauseTrack e i
    if mute then muteTrack e i else return e

theorem pause_eq (h : Firm e.listed e) (sequence : Nat) (mute : Bool) :
    pause e sequence mute = .ok (e.pause sequence mute) ∧
      Firm (e.pause sequence mute).listed (e.pause sequence mute) := by
  refine forTracksWhere_eq h _ (fun _ d s i hd hi => ?_) fun d i => ?_
  · have hlt := hd.paced.lt_size s i hi
    have hpaused := hd.pauseTrack i
    have hlt' : i < (d.pauseTrack i).tracks.size := by
      rwa [(sameSound_pauseTrack d i).tracks_size]
    dsimp only
    rw [pauseTrack_eq hd hlt, ok_bind]
    split
    · exact ⟨muteTrack_eq hpaused hlt', hpaused.muteTrack i⟩
    · exact ⟨rfl, hpaused⟩
  · dsimp only
    split
    · rw [(samePlaces_muteTrack _ i).slots_size, (sameLinks_pauseTrack d i).slots_size]
    · exact (sameLinks_pauseTrack d i).slots_size

/-- Pauses a track. Where notes are muted, those of music that were held are put aside. -/
def putAside (mute : Bool) (saved : List SavedNote) (e : Engine σ) (i : Nat) :
    Except Fault (List SavedNote × Engine σ) :=
  if mute then do
    let muted ← muteTrack e i
    return ((saved ++ e.heldMusic i).take maxSavedNotes, ← pauseTrack muted i)
  else return (saved, ← pauseTrack e i)

theorem putAside_eq (h : Firm held e) {i : Nat} (hi : i < e.tracks.size) (mute : Bool)
    (saved : List SavedNote) :
    let after := if mute then
        ((saved ++ e.heldMusic i).take maxSavedNotes, (e.muteTrack i).pauseTrack i)
      else (saved, e.pauseTrack i)
    putAside mute saved e i = .ok after ∧ Firm held after.2 := by
  have hmuted := h.muteTrack i
  have hi' : i < (e.muteTrack i).tracks.size := by rwa [(samePlaces_muteTrack e i).tracks_size]
  unfold putAside
  dsimp only
  split
  · rw [muteTrack_eq h hi, ok_bind, pauseTrack_eq hmuted hi']
    exact ⟨rfl, hmuted.pauseTrack i⟩
  · rw [pauseTrack_eq h hi]
    exact ⟨rfl, h.pauseTrack i⟩

/-- Pauses everything. -/
def pauseAll (e : Engine σ) (mute : Bool) (saved : List SavedNote) :
    Except Fault (List SavedNote × Engine σ) :=
  e.slotIds.foldlM (fun (saved, e) s => do
    let slot ← get e.slots s
    if slot.active then
      slot.trackList.foldlM (fun (saved, e) i => putAside mute saved e i) (saved, e)
    else return (saved, e)) (saved, e)

theorem pauseAll_eq (h : Firm e.listed e) (mute : Bool) (saved : List SavedNote) :
    pauseAll e mute saved = .ok (e.pauseAll mute saved) ∧
      Firm (e.pauseAll mute saved).2.listed (e.pauseAll mute saved).2 := by
  refine foldlM_slots Prod.snd (a := (saved, e)) (fun p s hfirm hs => ?_) (fun p s => ?_) h
  · obtain ⟨saved, d⟩ := p
    dsimp only at hfirm hs ⊢
    rw [get_slot hs, ok_bind]
    split
    · refine (foldlM_eq (fun l (p : List SavedNote × Engine σ) =>
        Firm d.listed p.2 ∧ ∀ i ∈ l, d.listed s i) (fun i l p hall => ?_) (d.slot s).trackList
          (saved, d) ⟨hfirm, fun i hi => List.mem_of_mem_take hi⟩).imp id fun hdone => hdone.1.rest
      obtain ⟨hp, hlist⟩ := hall
      have hlt := hp.paced.lt_size s i (hlist i List.mem_cons_self)
      obtain ⟨hrun, hpaused⟩ := putAside_eq hp hlt mute p.1
      exact ⟨hrun, hpaused, fun j hj => hlist j (List.mem_cons_of_mem i hj)⟩
    · exact ⟨rfl, hfirm⟩
  · obtain ⟨saved, d⟩ := p
    dsimp only
    split
    · refine foldl_keeps (fun (_ : List Nat) (p : List SavedNote × Engine σ) =>
        p.2.slots.size = d.slots.size) (fun i _ p hp => ?_) _ (saved, d) rfl
      split
      · rw [(sameLinks_pauseTrack _ i).slots_size, (samePlaces_muteTrack _ i).slots_size, hp]
      · rw [(sameLinks_pauseTrack _ i).slots_size, hp]
    · rfl

/-! ## Going on -/

/-- Lets a paused track go on. -/
def resumeTrack (e : Engine σ) (i : Nat) : Except Fault (Engine σ) := do
  let t ← lookUp e i
  if t.isStopped then
    let s ← get e.slots t.slot
    let _ ← unsigned 64 (s.tracksPlaying + 1)
    return e.resumeTrack i
  else return e

theorem resumeTrack_eq (h : Firm held e) {s i : Nat} (hi : held s i) :
    resumeTrack e i = .ok (e.resumeTrack i) ∧ Firm held (e.resumeTrack i) := by
  have hhome := h.paced.home s i hi
  refine ⟨?_, h.resumeTrack (hhome ▸ hi)⟩
  unfold resumeTrack
  rw [lookUp_eq h (h.paced.lt_size s i hi), ok_bind]
  split
  · have hplaying := h.tracksPlaying_le (h.seated.home i)
    simp only [maxTracksPerSequence] at hplaying
    rw [get_slot (h.seated.home i), ok_bind, unsigned_eq (by omega)]
    rfl
  · next hgoes =>
    unfold Engine.resumeTrack
    rw [if_neg hgoes]
    rfl

/-- Lets every slot that plays a sequence go on. -/
def restart (e : Engine σ) (sequence : Nat) : Except Fault (Engine σ) :=
  forTracksWhere e (·.sequence == sequence) resumeTrack

theorem restart_eq (h : Firm e.listed e) (sequence : Nat) :
    restart e sequence = .ok (e.restart sequence) ∧
      Firm (e.restart sequence).listed (e.restart sequence) :=
  forTracksWhere_eq h _ (fun _ _ _ _ hd hi => resumeTrack_eq hd hi)
    fun d i => (sameLinks_resumeTrack d i).slots_size

section Chip

variable [SoundChip σ]

/-- Lets everything go on, and strikes the notes put aside again. -/
def restartAll (e : Engine σ) (saved : List SavedNote) : Except Fault (Engine σ) :=
  e.slotIds.foldlM (fun e s => do
    let slot ← get e.slots s
    if slot.active then
      forTracksOf e s fun e i => do
        let e ← resumeTrack e i
        (saved.filter fun n => n.track == i && n.sequence == slot.sequence).foldlM
          (fun e n => playNote e i n.patchVoice n.note n.velocity) e
    else return e) e

/-- Notes that are struck again on a track. -/
theorem strike_eq (h : Firm held e) {i : Nat} (hi : i < e.tracks.size) (notes : List SavedNote) :
    notes.foldlM (fun e n => playNote e i n.patchVoice n.note n.velocity) e =
        .ok (notes.foldl (fun e n => e.playNote i n.patchVoice n.note n.velocity) e) ∧
      Firm held (notes.foldl (fun e n => e.playNote i n.patchVoice n.note n.velocity) e) := by
  refine (foldlM_eq (fun _ d => Firm held d ∧ i < d.tracks.size) (fun n _ d hall => ?_) notes e
    ⟨h, hi⟩).imp id And.left
  obtain ⟨hrun, hfirm⟩ := Machine.playNote_eq hall.1 hall.2 n.patchVoice n.note n.velocity
  exact ⟨hrun, hfirm, by rw [tracks_size_playNote]; exact hall.2⟩

theorem restartAll_eq (h : Firm e.listed e) (saved : List SavedNote) :
    restartAll e saved = .ok (e.restartAll saved) ∧
      Firm (e.restartAll saved).listed (e.restartAll saved) := by
  refine foldlM_slots id (fun d s hfirm hs => ?_) (fun d s => ?_) h
  · dsimp only [id] at hfirm hs ⊢
    rw [get_slot hs, ok_bind]
    split
    · have hwork := forTracksOf_eq (f := fun d' i => do
          let e ← resumeTrack d' i
          (saved.filter fun n => n.track == i && n.sequence == (d.slot s).sequence).foldlM
            (fun e n => playNote e i n.patchVoice n.note n.velocity) e)
        (g := fun d' i =>
          (saved.filter fun n => n.track == i && n.sequence == (d.slot s).sequence).foldl
            (fun e n => e.playNote i n.patchVoice n.note n.velocity) (d'.resumeTrack i))
        hfirm hs fun d' i hd hi => by
          obtain ⟨hresume, hresumed⟩ := resumeTrack_eq hd hi
          rw [hresume, ok_bind]
          exact strike_eq hresumed (hresumed.paced.lt_size s i hi) _
      exact ⟨hwork.1, hwork.2.rest⟩
    · exact ⟨rfl, hfirm⟩
  · dsimp only [id]
    split
    · refine slots_size_forTracksOf (fun d' i => ?_) d s
      refine foldl_keeps (fun (_ : List SavedNote) (b : Engine σ) => b.slots.size = d'.slots.size)
        (fun n _ b hb => (slots_size_playNote b i _ _ _).trans hb) _ _ ?_
      exact (sameLinks_resumeTrack d' i).slots_size
    · rfl

/-! ## Changing settings -/

/-- A command of the driver that is no note. -/
theorem control_eq (h : Firm held e) {i : Nat} (hi : i < e.tracks.size) {c : Command}
    (hon : c.op ≠ .noteOn) (hoff : c.op ≠ .noteOff) :
    driverCommand e i c = .ok (e.driverCommand i c) ∧ Firm held (e.driverCommand i c) ∧
      i < (e.driverCommand i c).tracks.size := by
  obtain ⟨hrun, hfirm⟩ := driverCommand_eq h hi c
  exact ⟨hrun, hfirm, by rwa [(tuned_driverCommand e i c hon hoff).tracks_size]⟩

/-- The levels that `attrs` gives, for the voices of a track. -/
def updateLevels (e : Engine σ) (i : Nat) (attrs : PlayAttrs) : Except Fault (Engine σ) :=
  if attrs.mask.volume then driverCommand e i (.volumeMod attrs.volume)
  else if attrs.mask.pan then driverCommand e i (.panMod attrs.pan)
  else return e

theorem updateLevels_eq (h : Firm held e) {i : Nat} (hi : i < e.tracks.size) (attrs : PlayAttrs) :
    let after := if attrs.mask.volume then e.driverCommand i (.volumeMod attrs.volume)
      else if attrs.mask.pan then e.driverCommand i (.panMod attrs.pan)
      else e
    updateLevels e i attrs = .ok after ∧ Firm held after ∧ i < after.tracks.size := by
  unfold updateLevels
  dsimp only
  split
  · exact control_eq h hi nofun nofun
  · split
    · exact control_eq h hi nofun nofun
    · exact ⟨rfl, h, hi⟩

/-- The bend that `attrs` gives, for the voices of a track. -/
def updatePitch (e : Engine σ) (i : Nat) (attrs : PlayAttrs) : Except Fault (Engine σ) :=
  if attrs.mask.pitch then driverCommand e i (.pitchMod attrs.pitch) else return e

theorem updatePitch_eq (h : Firm held e) {i : Nat} (hi : i < e.tracks.size) (attrs : PlayAttrs) :
    let after := if attrs.mask.pitch then e.driverCommand i (.pitchMod attrs.pitch) else e
    updatePitch e i attrs = .ok after ∧ Firm held after ∧ i < after.tracks.size := by
  unfold updatePitch
  dsimp only
  split
  · exact control_eq h hi nofun nofun
  · exact ⟨rfl, h, hi⟩

/-- The advance per tick of a track with the tempo that `attrs` gives. -/
def updateTempo (t : Track) (attrs : PlayAttrs) : Except Fault UInt32 :=
  if attrs.mask.tempo then partsPerInterrupt t.ppq attrs.tempo else return t.ppi

/-- Gives track `i` the settings that `attrs` gives. -/
def updateTrack (e : Engine σ) (i : Nat) (attrs : PlayAttrs) : Except Fault (Engine σ) := do
  let _ ← get e.tracks i
  let e := if attrs.mask.pan then e.modifyTrack i fun t => { t with pan := attrs.pan } else e
  let e ← updateLevels e i attrs
  let e ← updatePitch e i attrs
  let t ← get e.tracks i
  let _ ← updateTempo t attrs
  return e.modifyTrack i (·.override attrs)

theorem pc_override (t : Track) (attrs : PlayAttrs) : (t.override attrs).pc = t.pc := by
  unfold Track.override
  dsimp only
  split <;> split <;> rfl

theorem updateTrack_eq (h : Firm held e) {i : Nat} (hi : i < e.tracks.size) (attrs : PlayAttrs) :
    updateTrack e i attrs = .ok (e.updateTrack i attrs) ∧ Firm held (e.updateTrack i attrs) := by
  have hpanned : let panned :=
        if attrs.mask.pan then e.modifyTrack i fun t => { t with pan := attrs.pan } else e
      Firm held panned ∧ i < panned.tracks.size := by
    dsimp only
    split
    · exact ⟨h.adjust i rfl rfl, by simpa [modifyTrack] using hi⟩
    · exact ⟨h, hi⟩
  obtain ⟨hlevels, hlevelled, hi'⟩ := updateLevels_eq hpanned.1 hpanned.2 attrs
  obtain ⟨hpitch, hbent, hi''⟩ := updatePitch_eq hlevelled hi' attrs
  have htempo : ∀ t : Track, ∃ ppi, updateTempo t attrs = .ok ppi := by
    intro t
    unfold updateTempo
    split
    · exact ⟨_, partsPerInterrupt_eq _ _⟩
    · exact ⟨_, rfl⟩
  obtain ⟨ppi, hppi⟩ := htempo _
  unfold updateTrack
  rw [get_track hi, ok_bind]
  dsimp only
  rw [hlevels, ok_bind, hpitch, ok_bind, get_track hi'', ok_bind, hppi, ok_bind]
  exact ⟨rfl, hbent.adjust i (standing_override _ attrs) (pc_override _ attrs)⟩

/-- Gives the settings that `attrs` gives to every slot under `tag`. -/
def updateTagged (e : Engine σ) (tag : UInt32) (attrs : PlayAttrs) : Except Fault (Engine σ) :=
  if attrs.mask.isEmpty then return e
  else forTracksWhere e (·.tag == tag) (updateTrack · · attrs)

theorem updateTagged_eq (h : Firm e.listed e) (tag : UInt32) (attrs : PlayAttrs) :
    updateTagged e tag attrs = .ok (e.updateTagged tag attrs) ∧
      Firm (e.updateTagged tag attrs).listed (e.updateTagged tag attrs) := by
  unfold updateTagged Engine.updateTagged
  split
  · exact ⟨rfl, h⟩
  · exact forTracksWhere_eq h _
      (fun _ _ s i hd hi => updateTrack_eq hd (hd.paced.lt_size s i hi) attrs)
      fun d i => (tuned_updateTrack d i attrs).slots_size

/-- Sets a master volume. -/
def setVolumeOf (e : Engine σ) (kind : MasterKind) (volume : UInt8) : Except Fault (Engine σ) :=
  match kind with
  | .effects => return { e with effectVolume := volume }
  | .music =>
    e.trackIds.foldlM (fun e i => do
      let t ← get e.tracks i
      if t.isActive && t.soundClass == .music then driverCommand e i (.volumeMod t.volume)
      else return e) { e with musicVolume := volume }

theorem setVolumeOf_eq (h : Firm held e) (kind : MasterKind) (volume : UInt8) :
    setVolumeOf e kind volume = .ok (e.setVolumeOf kind volume) ∧
      Firm held (e.setVolumeOf kind volume) := by
  cases kind with
  | effects =>
    exact ⟨rfl, h.of_pools rfl h.steady.frac_lt h.steady.masterFade h.steady.cdFade⟩
  | music =>
    have hset : Firm held { e with musicVolume := volume } :=
      h.of_pools rfl h.steady.frac_lt h.steady.masterFade h.steady.cdFade
    refine (foldlM_eq (fun l d => Firm held d ∧ ∀ i ∈ l, i < d.tracks.size) (fun i l d hall => ?_)
      e.trackIds { e with musicVolume := volume }
      ⟨hset, fun i hi => List.mem_range.mp hi⟩).imp id And.left
    obtain ⟨hfirm, hids⟩ := hall
    have hrest : ∀ j ∈ l, j < d.tracks.size := fun j hj => hids j (List.mem_cons_of_mem i hj)
    have hi := hids i List.mem_cons_self
    rw [get_track hi, ok_bind]
    dsimp only
    split
    · obtain ⟨hrun, hfirm'⟩ := driverCommand_eq hfirm hi (.volumeMod (d.track i).volume)
      refine ⟨hrun, hfirm', ?_⟩
      rw [(tuned_driverCommand d i (.volumeMod (d.track i).volume) nofun nofun).tracks_size]
      exact hrest
    · exact ⟨rfl, hfirm, hrest⟩

/-! ## Fades -/

/-- Fades the chip's master volume. -/
def startMasterFade (e : Engine σ) (ms : UInt32) (dest : Int16) : Except Fault (Engine σ) := do
  let masterFade ← startFade e.masterVolume ms dest
  return { e with masterFade }

/-- Fades the volume of the disc input. -/
def startCdFade (e : Engine σ) (ms : UInt32) (dest : Int16) : Except Fault (Engine σ) := do
  let cdFade ← startFade e.cdVolume ms dest
  return { e with cdFade }

omit [SoundChip σ] in
theorem startMasterFade_eq (h : Firm held e) (ms : UInt32) {dest : Int16}
    (hcurrent : 0 ≤ e.masterVolume.toInt) (hdest : 0 ≤ dest.toInt) :
    startMasterFade e ms dest = .ok (e.startMasterFade ms dest) ∧
      Firm held (e.startMasterFade ms dest) := by
  unfold startMasterFade
  rw [startFade_eq hcurrent hdest]
  exact ⟨rfl, h.of_pools rfl h.steady.frac_lt (Fade.fits_start hcurrent hdest ms)
    h.steady.cdFade⟩

omit [SoundChip σ] in
theorem startCdFade_eq (h : Firm held e) (ms : UInt32) {dest : Int16}
    (hcurrent : 0 ≤ e.cdVolume.toInt) (hdest : 0 ≤ dest.toInt) :
    startCdFade e ms dest = .ok (e.startCdFade ms dest) ∧
      Firm held (e.startCdFade ms dest) := by
  unfold startCdFade
  rw [startFade_eq hcurrent hdest]
  exact ⟨rfl, h.of_pools rfl h.steady.frac_lt h.steady.masterFade
    (Fade.fits_start hcurrent hdest ms)⟩

/-! ## Calls and runs -/

/-- One call. Those that are not listed compute nothing. -/
def perform (s : Session σ) : Call σ → Except Fault (Session σ)
  | .tick => return s.withEngine (← tick s.engine)
  | .start sequence options =>
    return s.withEngine (← startSequence s.engine sequence options).2
  | .releaseHandle slot => return s.withEngine (← releaseHandle s.engine slot)
  | .stop sequence => return s.withEngine (← endWhere s.engine (·.sequence == sequence))
  | .stopAll => return s.withEngine (← endWhere s.engine fun _ => true)
  | .stopTagged tag => return s.withEngine (← endWhere s.engine (·.tag == tag))
  | .pause sequence mute => return s.withEngine (← pause s.engine sequence mute)
  | .pauseAll mute saved => do
    let (saved, engine) ← pauseAll s.engine mute saved
    return { engine, noted := s.noted ++ saved }
  | .restart sequence => return s.withEngine (← restart s.engine sequence)
  | .restartAll saved => return s.withEngine (← restartAll s.engine saved)
  | .updateTagged tag attrs => return s.withEngine (← updateTagged s.engine tag attrs)
  | .setVolumeOf kind volume => return s.withEngine (← setVolumeOf s.engine kind volume)
  | .startMasterFade ms dest => return s.withEngine (← startMasterFade s.engine ms dest)
  | .startCdFade ms dest => return s.withEngine (← startCdFade s.engine ms dest)
  | call => return s.perform call

/-- Several calls. -/
def run (s : Session σ) (calls : List (Call σ)) : Except Fault (Session σ) :=
  calls.foldlM perform s

end Chip

end Machine

/-- Whether a call starts no fade, or one between volumes that are not negative. -/
def Session.FadesWithin {σ : Type} (s : Session σ) : Call σ → Prop
  | .startMasterFade _ dest => 0 ≤ s.engine.masterVolume.toInt ∧ 0 ≤ dest.toInt
  | .startCdFade _ dest => 0 ≤ s.engine.cdVolume.toInt ∧ 0 ≤ dest.toInt
  | _ => True

instance {σ : Type} (s : Session σ) (call : Call σ) : Decidable (s.FadesWithin call) := by
  unfold Session.FadesWithin
  split <;> infer_instance

namespace Machine

open Engine

variable {σ : Type} [SoundChip σ]

omit [SoundChip σ] in
/-- What a call does to the engine alone. -/
theorem withEngine_eq (s : Session σ) {work : Except Fault (Engine σ)} {e : Engine σ}
    (h : work = .ok e ∧ Firm e.listed e) :
    (do return s.withEngine (← work)) = Except.ok (s.withEngine e) ∧
      Firm (s.withEngine e).engine.listed (s.withEngine e).engine := by
  rw [h.1]
  exact ⟨rfl, h.2⟩

/-- A machine gets through a call on a firm session. -/
theorem perform_eq {s : Session σ} (h : Firm s.engine.listed s.engine) {call : Call σ}
    (hfades : s.FadesWithin call) :
    perform s call = .ok (s.perform call) ∧
      Firm (s.perform call).engine.listed (s.perform call).engine := by
  have hplain : ∀ {e : Engine σ}, e.pools = s.engine.pools → e.panel = s.engine.panel →
      Firm e.listed e := by
    intro e hpools hpanel
    simp only [panel, Prod.mk.injEq] at hpanel
    obtain ⟨hclock, hmaster, hcd⟩ := hpanel
    have hfirm : Firm s.engine.listed e := h.of_pools hpools
      (by rw [hclock]; exact h.steady.frac_lt)
      (by rw [hmaster]; exact h.steady.masterFade) (by rw [hcd]; exact h.steady.cdFade)
    exact hfirm.rest
  cases call with
  | tick =>
    obtain ⟨hrun, hfirm⟩ := Machine.tick_eq h
    have hperform : s.perform .tick = s.withEngine s.engine.tick := by simp only [Session.perform]
    rw [hperform]
    exact withEngine_eq s ⟨hrun, hfirm.rest⟩
  | start sequence options =>
    obtain ⟨hrun, hfirm⟩ := Machine.startSequence_eq h sequence options
    simp only [perform, hrun, ok_bind]
    exact ⟨rfl, hfirm⟩
  | releaseHandle slot =>
    obtain ⟨hrun, hfirm⟩ := releaseHandle_eq h slot
    exact withEngine_eq s ⟨hrun, hfirm.rest⟩
  | stop sequence => exact withEngine_eq s (endWhere_eq h (·.sequence == sequence))
  | stopAll => exact withEngine_eq s (endWhere_eq h fun _ => true)
  | stopTagged tag => exact withEngine_eq s (endWhere_eq h (·.tag == tag))
  | pause sequence mute => exact withEngine_eq s (pause_eq h sequence mute)
  | pauseAll mute saved =>
    obtain ⟨hrun, hfirm⟩ := pauseAll_eq h mute saved
    simp only [perform, hrun, ok_bind]
    exact ⟨rfl, hfirm⟩
  | restart sequence => exact withEngine_eq s (restart_eq h sequence)
  | restartAll saved => exact withEngine_eq s (restartAll_eq h saved)
  | updateTagged tag attrs => exact withEngine_eq s (updateTagged_eq h tag attrs)
  | setVolumeOf kind volume =>
    obtain ⟨hrun, hfirm⟩ := setVolumeOf_eq h kind volume
    exact withEngine_eq s ⟨hrun, hfirm.rest⟩
  | startMasterFade ms dest =>
    obtain ⟨hrun, hfirm⟩ := startMasterFade_eq h ms hfades.1 hfades.2
    exact withEngine_eq s ⟨hrun, hfirm.rest⟩
  | startCdFade ms dest =>
    obtain ⟨hrun, hfirm⟩ := startCdFade_eq h ms hfades.1 hfades.2
    exact withEngine_eq s ⟨hrun, hfirm.rest⟩
  | setMasterVolume volume =>
    have hfirm : Firm s.engine.listed (s.engine.setMasterVolume volume) :=
      h.of_pools rfl h.steady.frac_lt (Fade.fits_cancel _) h.steady.cdFade
    exact ⟨rfl, hfirm.rest⟩
  | setCdVolume volume =>
    have hfirm : Firm s.engine.listed (s.engine.setCdVolume volume) :=
      h.of_pools rfl h.steady.frac_lt h.steady.masterFade (Fade.fits_cancel _)
    exact ⟨rfl, hfirm.rest⟩
  | setPanMode panMode => exact ⟨rfl, hplain rfl rfl⟩
  | setMuteRelease ms => exact ⟨rfl, hplain rfl rfl⟩
  | upload address data => exact ⟨rfl, hplain rfl rfl⟩
  | listen kind =>
    refine ⟨rfl, ?_⟩
    unfold Session.perform Engine.listen
    cases s.engine.listeners.findIdx? Option.isNone with
    | none => exact h
    | some place => exact hplain rfl rfl
  | unlisten kind => exact ⟨rfl, hplain rfl rfl⟩
  | takeMarks => exact ⟨rfl, hplain rfl rfl⟩
  | onChip f => exact ⟨rfl, hplain rfl rfl⟩

/-- A machine gets through the calls of a firm session. -/
theorem run_eq : ∀ {calls : List (Call σ)} {s : Session σ}, Firm s.engine.listed s.engine →
    s.Allows Session.FadesWithin calls → run s calls = .ok (s.run calls)
  | [], _, _, _ => rfl
  | call :: calls, s, h, ⟨hfades, hrest⟩ => by
    obtain ⟨hcall, hfirm⟩ := perform_eq h hfades
    have hcalls : run (s.perform call) calls = .ok ((s.perform call).run calls) :=
      run_eq hfirm hrest
    unfold run at hcalls ⊢
    rw [List.foldlM_cons, hcall, ok_bind, hcalls]
    rfl

end Machine

/-! ## Runs of a new engine -/

/-- A machine gets through every run on an admitted module that starts fades only between
volumes that are not negative, whatever byte code the tracks have: it ends where the engine
ends. And every tick on the way ends, with no more commands of a track than it may execute. -/
theorem faultless_throughout {σ : Type} [SoundChip σ] {module : SoundModule} {chip : σ}
    {e : Engine σ} (hmake : Engine.make module chip = .ok e) (hmemory : module.FitsMemory)
    {calls : List (Call σ)}
    (hfades : Session.Allows Session.FadesWithin { engine := e } calls) :
    Machine.run { engine := e } calls = .ok (Session.run { engine := e } calls) ∧
      Session.Throughout (fun s => ∀ i,
        s.engine.executions.countP (fun p => p.2 == i) ≤ maxCommandsPerTick)
        { engine := e } calls := by
  refine ⟨Machine.run_eq (Engine.firm_make hmake hmemory) hfades, ?_⟩
  have hall : Session.Allows (fun _ _ => True) { engine := e } calls :=
    Session.allows_of_forall (fun _ _ => trivial) calls _
  exact hall.throughout _ (fun s call _ _ i => (s.perform call).engine.countP_executions_le i)
    fun i => e.countP_executions_le i

/-- A note is cut off and another one struck while the volume fades; then the stream of the
track ends behind a jump to a label that it does not have. -/
theorem faultless_throughout_fade : ∃ e,
    Engine.make (solo [(0, .noteOn 60 100), (2, .iterJump 0 3 0)])
        ({ instantRelease := false } : RecorderChip) = .ok e ∧
      (Session.run { engine := e } [.start 0 {}, .tick, .pauseAll true [],
        .restartAll [⟨0, 0, 62, 90, 0, 0⟩], .startMasterFade 50 0, .tick, .tick]).engine.masterVolume
          = 11702 ∧
      (Machine.run { engine := e } [.start 0 {}, .tick, .pauseAll true [],
          .restartAll [⟨0, 0, 62, 90, 0, 0⟩], .startMasterFade 50 0, .tick, .tick] =
        .ok (Session.run { engine := e } [.start 0 {}, .tick, .pauseAll true [],
          .restartAll [⟨0, 0, 62, 90, 0, 0⟩], .startMasterFade 50 0, .tick, .tick]) ∧
      Session.Throughout (fun s => ∀ i,
          s.engine.executions.countP (fun p => p.2 == i) ≤ maxCommandsPerTick)
        { engine := e } [.start 0 {}, .tick, .pauseAll true [],
          .restartAll [⟨0, 0, 62, 90, 0, 0⟩], .startMasterFade 50 0, .tick, .tick]) := by
  obtain ⟨e, hmake, hvolume, hfades⟩ : ∃ e,
      Engine.make (solo [(0, .noteOn 60 100), (2, .iterJump 0 3 0)])
          ({ instantRelease := false } : RecorderChip) = .ok e ∧
        (Session.run { engine := e } [.start 0 {}, .tick, .pauseAll true [],
          .restartAll [⟨0, 0, 62, 90, 0, 0⟩], .startMasterFade 50 0, .tick,
          .tick]).engine.masterVolume = 11702 ∧
        Session.Allows Session.FadesWithin { engine := e } [.start 0 {}, .tick, .pauseAll true [],
          .restartAll [⟨0, 0, 62, 90, 0, 0⟩], .startMasterFade 50 0, .tick, .tick] :=
    Engine.exists_make (by decide +kernel)
  exact ⟨e, hmake, hvolume, faultless_throughout hmake (by decide) hfades⟩

end SoundSequencer
