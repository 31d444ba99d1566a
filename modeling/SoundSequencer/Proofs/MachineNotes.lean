/-
SoundSequencer.Proofs.MachineNotes — ending tracks and playing notes on a machine.

* `Machine.turnOff`, `Machine.freeVoice`, `Machine.playNote` and so on are the operations
  with every table that a machine looks into and every number that it computes on
  the way.
* On a firm engine the machine gets through each of them, to the engine that the
  operation leaves, which is firm again.
-/
import SoundSequencer.Proofs.Firm

namespace SoundSequencer.Machine

open Engine

variable {σ : Type} {held : Nat → Nat → Prop} {e : Engine σ}

/-! ## Tables -/

theorem get_track {i : Nat} (hi : i < e.tracks.size) : get e.tracks i = .ok (e.track i) :=
  get_getD hi {}

theorem get_slot {s : Nat} (hs : s < e.slots.size) : get e.slots s = .ok (e.slot s) :=
  get_getD hs {}

/-- A track, for work that goes on to its slot. -/
def lookUp (e : Engine σ) (i : Nat) : Except Fault Track := do
  let t ← get e.tracks i
  let _ ← get e.slots t.slot
  return t

theorem lookUp_eq (h : Firm held e) {i : Nat} (hi : i < e.tracks.size) :
    lookUp e i = .ok (e.track i) := by
  unfold lookUp
  rw [get_track hi, ok_bind, get_slot (h.seated.home i)]
  rfl

/-- Work on every track of a slot, one after the other. -/
def forTracksOf (e : Engine σ) (slot : Nat) (f : Engine σ → Nat → Except Fault (Engine σ)) :
    Except Fault (Engine σ) := do
  let s ← get e.slots slot
  s.trackList.foldlM f e

theorem forTracksOf_eq (h : Firm held e) {s : Nat} (hs : s < e.slots.size)
    {f : Engine σ → Nat → Except Fault (Engine σ)} {g : Engine σ → Nat → Engine σ}
    (hstep : ∀ e i, Firm held e → held s i → f e i = .ok (g e i) ∧ Firm held (g e i)) :
    forTracksOf e s f = .ok (e.forTracksOf s g) ∧ Firm held (e.forTracksOf s g) := by
  have hheld : ∀ i ∈ (e.slot s).trackList, held s i :=
    fun i hi => h.paced.lists s i (List.mem_of_mem_take hi)
  have hwork := foldlM_eq (f := f) (g := g) (fun l e => Firm held e ∧ ∀ i ∈ l, held s i)
    (fun i l e hall => by
      obtain ⟨hrun, hfirm⟩ := hstep e i hall.1 (hall.2 i List.mem_cons_self)
      exact ⟨hrun, hfirm, fun j hj => hall.2 j (List.mem_cons_of_mem i hj)⟩)
    (e.slot s).trackList e ⟨h, hheld⟩
  unfold forTracksOf
  rw [get_slot hs, ok_bind]
  exact ⟨hwork.1, hwork.2.1⟩

/-! ## Ends -/

/-- Ends a track. -/
def turnOff (e : Engine σ) (i : Nat) : Except Fault (Engine σ) := do
  let _ ← lookUp e i
  let _ ← muteReleaseTime e.muteRate
  return e.turnOff i

theorem turnOff_eq (h : Firm held e) {i : Nat} (hi : i < e.tracks.size) :
    turnOff e i = .ok (e.turnOff i) := by
  unfold turnOff
  rw [lookUp_eq h hi, ok_bind, muteReleaseTime_eq]
  rfl

/-- Ends every track of a slot. -/
def endSequence (e : Engine σ) (slot : Nat) : Except Fault (Engine σ) :=
  forTracksOf e slot turnOff

theorem endSequence_eq (h : Firm held e) {s : Nat} (hs : s < e.slots.size) :
    endSequence e s = .ok (e.endSequence s) ∧ Firm held (e.endSequence s) :=
  forTracksOf_eq h hs fun _ i he hi => ⟨turnOff_eq he (he.paced.lt_size s i hi), he.turnOff i⟩

/-- Mutes the notes of a track. -/
def muteTrack (e : Engine σ) (i : Nat) : Except Fault (Engine σ) := do
  let _ ← lookUp e i
  let _ ← muteReleaseTime e.muteRate
  return e.muteTrack i

theorem muteTrack_eq (h : Firm held e) {i : Nat} (hi : i < e.tracks.size) :
    muteTrack e i = .ok (e.muteTrack i) := by
  unfold muteTrack
  rw [lookUp_eq h hi, ok_bind, muteReleaseTime_eq]
  rfl

/-- Makes a voice idle. One that is in use is taken off the count, and its owner is looked
up. -/
def freeVoice (e : Engine σ) (v : Nat) : Except Fault (Engine σ) :=
  if (e.voice v).active then do
    let _ ← minus e.voices.active 1
    let _ ← lookUp e (e.voice v).track
    return e.freeVoice v
  else return e

theorem freeVoice_eq (h : Firm held e) (v : Nat) : freeVoice e v = .ok (e.freeVoice v) := by
  unfold freeVoice
  split
  · next hbusy =>
    rw [minus_eq (h.manned.active_pos hbusy), ok_bind, lookUp_eq h (h.manned.owner_lt v hbusy)]
    rfl
  · next hidle =>
    rw [freeVoice_of_idle (by simpa using hidle)]
    rfl

/-! ## Levels and pitch -/

/-- The left and the right level of a note of track `i`. -/
def levels (e : Engine σ) (i : Nat) (patch : PatchVoice) (velocity : UInt8) :
    Except Fault (Int16 × Int16) := do
  let t ← get e.tracks i
  let pan ← voicePan t.pan patch.pan e.panMode
  let volume ← voiceVolume velocity patch.volume t.volume (e.classVolume t.soundClass)
  stereoLevels volume pan e.panMode

theorem levels_eq {i : Nat} (hi : i < e.tracks.size) (patch : PatchVoice) (velocity : UInt8) :
    levels e i patch velocity = .ok (e.levels i patch velocity) := by
  unfold levels
  rw [get_track hi, ok_bind, voicePan_eq, ok_bind, voiceVolume_eq, ok_bind]
  exact stereoLevels_eq _ (voiceVolume_le _ _ _ _) (voicePan_mem _ _ _)

section Chip

variable [SoundChip σ]

/-- Writes registers of every voice of track `i`. -/
def writeOwned (e : Engine σ) (i : Nat) (mask : RegisterMask)
    (registers : Voice → PatchVoice → Except Fault VoiceRegisters) : Except Fault (Engine σ) := do
  let t ← get e.tracks i
  if t.voicesActive = 0 then return e
  else
    let chip ← (e.voices.ownedBy i).foldlM (fun chip v =>
      match e.patchVoice? v with
      | none => return chip
      | some patch => do
        let new ← registers (e.voice v) patch
        return SoundChip.writeRegisters (VoiceSet.single v) mask new chip) e.chip
    return { e with chip }

theorem writeOwned_eq {i : Nat} (hi : i < e.tracks.size) (mask : RegisterMask)
    {registers : Voice → PatchVoice → Except Fault VoiceRegisters}
    {plain : Voice → PatchVoice → VoiceRegisters}
    (hplain : ∀ voice patch, registers voice patch = .ok (plain voice patch)) :
    writeOwned e i mask registers = .ok (e.writeOwned i mask plain) := by
  have hwrites := foldlM_eq (f := fun chip v =>
      match e.patchVoice? v with
      | none => return chip
      | some patch => do
        let new ← registers (e.voice v) patch
        return SoundChip.writeRegisters (VoiceSet.single v) mask new chip)
    (g := fun chip v =>
      match e.patchVoice? v with
      | none => chip
      | some patch =>
        SoundChip.writeRegisters (VoiceSet.single v) mask (plain (e.voice v) patch) chip)
    (fun _ _ => True)
    (fun v _ chip _ => by
      refine ⟨?_, trivial⟩
      cases e.patchVoice? v with
      | none => rfl
      | some patch =>
        dsimp only
        rw [hplain]
        rfl)
    (e.voices.ownedBy i) e.chip trivial
  unfold writeOwned Engine.writeOwned
  rw [get_track hi, ok_bind]
  split
  · rfl
  · rw [hwrites.1]
    rfl

/-- Sends the levels of every voice of a track to the chip again. -/
def pushLevels (e : Engine σ) (i : Nat) : Except Fault (Engine σ) :=
  writeOwned e i .levels fun voice patch => do
    let (left, right) ← levels e i patch voice.velocity
    return { left, right }

theorem pushLevels_eq {i : Nat} (hi : i < e.tracks.size) :
    pushLevels e i = .ok (e.pushLevels i) := by
  refine writeOwned_eq hi _ fun voice patch => ?_
  rw [levels_eq hi]
  rfl

/-- Bends a track, with all its voices. -/
def bendPitch (e : Engine σ) (i : Nat) (pitch : Int16) : Except Fault (Engine σ) := do
  let t ← get e.tracks i
  if t.pitch = pitch then return e
  else
    writeOwned (e.modifyTrack i fun t => { t with pitch }) i { note := true }
      fun voice patch => do
        let note ← voiceNote voice.note pitch patch
        return { note }

theorem bendPitch_eq {i : Nat} (hi : i < e.tracks.size) (pitch : Int16) :
    bendPitch e i pitch = .ok (e.bendPitch i pitch) := by
  unfold bendPitch Engine.bendPitch
  rw [get_track hi, ok_bind]
  split
  · rfl
  · refine writeOwned_eq (by simpa [modifyTrack] using hi) _ fun voice patch => ?_
    rw [voiceNote_eq]
    rfl

/-- Sets the volume of a track, with all its voices. -/
def setTrackVolume (e : Engine σ) (i : Nat) (volume : UInt8) : Except Fault (Engine σ) := do
  let _ ← get e.tracks i
  pushLevels (e.modifyTrack i fun t => { t with volume }) i

theorem setTrackVolume_eq {i : Nat} (hi : i < e.tracks.size) (volume : UInt8) :
    setTrackVolume e i volume = .ok (e.setTrackVolume i volume) := by
  unfold setTrackVolume
  rw [get_track hi, ok_bind]
  exact pushLevels_eq (by simpa [modifyTrack] using hi)

/-- Sets the pan of a track, with all its voices unless pans are off. -/
def setTrackPan (e : Engine σ) (i : Nat) (pan : UInt8) : Except Fault (Engine σ) := do
  let _ ← get e.tracks i
  let e := e.modifyTrack i fun t => { t with pan }
  if e.panMode = .off then return e else pushLevels e i

theorem setTrackPan_eq {i : Nat} (hi : i < e.tracks.size) (pan : UInt8) :
    setTrackPan e i pan = .ok (e.setTrackPan i pan) := by
  unfold setTrackPan Engine.setTrackPan
  rw [get_track hi, ok_bind]
  dsimp only
  split
  · rfl
  · exact pushLevels_eq (by simpa [modifyTrack] using hi)

/-! ## Notes -/

/-- The voice to cut off for a note. The scan looks up the best voice so far again. -/
def victim (p : VoicePool) (priority : UInt8) : Except Fault (Option Nat) :=
  (List.range p.limit).foldlM (fun best v =>
    if priority < (p.voice v).priority then return best
    else
      match best with
      | none => return some v
      | some b => do
        let other ← get p.voices b
        return if (p.voice v).cheaperThan other then some v else best) none

theorem victim_eq (p : VoicePool) (priority : UInt8) :
    victim p priority = .ok (p.victim? priority) := by
  refine (foldlM_eq (fun (l : List Nat) (best : Option Nat) =>
    (∀ w ∈ l, w < p.limit) ∧ ∀ w, best = some w → w < p.limit) (fun v l best hseen => ?_)
    (List.range p.limit) none ⟨fun w hw => List.mem_range.mp hw, nofun⟩).1
  obtain ⟨hl, hbest⟩ := hseen
  have hv : ∀ w, some v = some w → w < p.limit := by
    rintro w ⟨⟩
    exact hl v List.mem_cons_self
  have hrest : ∀ w ∈ l, w < p.limit := fun w hw => hl w (List.mem_cons_of_mem v hw)
  split
  · exact ⟨rfl, hrest, hbest⟩
  · cases best with
    | none => exact ⟨rfl, hrest, hv⟩
    | some b =>
      have hother : get p.voices b = .ok (p.voice b) := get_getD (hbest b rfl) {}
      dsimp only
      rw [hother, ok_bind, pure_eq]
      refine ⟨rfl, hrest, ?_⟩
      split
      · exact hv
      · exact hbest

/-- The voice for a note. The pool is a part of all voices of the hardware. -/
def choose (p : VoicePool) (priority : UInt8) : Except Fault (Option VoiceChoice) := do
  inside (hardwareVoices + 1) p.limit
  match p.firstIdle? with
  | some v => return some (.free v)
  | none =>
    let v ← victim p priority
    return v.map .steal

theorem choose_eq {p : VoicePool} (h : p.limit ≤ hardwareVoices) (priority : UInt8) :
    choose p priority = .ok (p.choose priority) := by
  unfold choose VoicePool.choose
  rw [inside_eq (Nat.lt_succ_of_le h), ok_bind]
  cases p.firstIdle? with
  | some v => rfl
  | none =>
    dsimp only
    rw [victim_eq]
    rfl

/-- Starts a note of track `i` on voice `v`. -/
def startVoice (e : Engine σ) (v i : Nat) (patchVoice : UInt16) (note velocity : UInt8) :
    Except Fault (Engine σ) :=
  match e.module.patches.voice? patchVoice.toNat with
  | none => return e
  | some patch => do
    let t ← get e.tracks i
    let _ ← envelopeRelease patch.adsr2
    let _ ← unsigned 64 (e.voices.active + 1)
    let _ ← unsigned 8 (t.voicesActive + 1)
    inside hardwareVoices v
    let _ ← levels e i patch velocity
    let _ ← voiceNote note t.pitch patch
    return e.startVoice v i patchVoice note velocity

theorem startVoice_eq (h : Firm held e) {v i : Nat} (hv : v < e.voices.limit)
    (hi : i < e.tracks.size) (hroom : (e.track i).voicesActive + 1 < 2 ^ 8) (patchVoice : UInt16)
    (note velocity : UInt8) :
    startVoice e v i patchVoice note velocity =
      .ok (e.startVoice v i patchVoice note velocity) := by
  unfold startVoice
  split
  · next hpatch => rw [startVoice_of_none hpatch, pure_eq]
  · have hactive : e.voices.active + 1 < 2 ^ 64 :=
      Nat.lt_of_le_of_lt (Nat.succ_le_succ h.manned.active_le) (by decide)
    rw [get_track hi, ok_bind, envelopeRelease_eq, ok_bind, unsigned_eq hactive, ok_bind,
      unsigned_eq hroom, ok_bind, inside_eq (Nat.lt_of_lt_of_le hv h.manned.limit_le), ok_bind,
      levels_eq hi, ok_bind, voiceNote_eq, ok_bind, pure_eq]

/-- Plays a note of track `i`. -/
def playNote (e : Engine σ) (i : Nat) (patchVoice : UInt16) (note velocity : UInt8) :
    Except Fault (Engine σ) := do
  let t ← get e.tracks i
  if t.maxVoices ≤ t.voicesActive then return e
  else
    match ← choose e.voices t.priority with
    | none => return e
    | some (.free v) => startVoice e v i patchVoice note velocity
    | some (.steal v) =>
      let e ← freeVoice e v
      startVoice e v i patchVoice note velocity

theorem playNote_eq (h : Firm held e) {i : Nat} (hi : i < e.tracks.size) (patchVoice : UInt16)
    (note velocity : UInt8) :
    playNote e i patchVoice note velocity = .ok (e.playNote i patchVoice note velocity) ∧
      Firm held (e.playNote i patchVoice note velocity) := by
  have hmax := h.steady.maxVoices_lt i
  unfold playNote Engine.playNote
  rw [get_track hi, ok_bind]
  dsimp only
  split
  · exact ⟨rfl, h⟩
  · next hroom =>
    rw [choose_eq h.manned.limit_le, ok_bind]
    rcases hchoice : e.voices.choose (e.track i).priority with - | ⟨v⟩ | ⟨v⟩
    · exact ⟨rfl, h⟩
    · have hv := (VoicePool.choose_free hchoice).1
      exact ⟨startVoice_eq h hv hi (by omega) _ _ _, h.startVoice hv hi _ _ _⟩
    · have hfreed := h.freeVoice v
      have hv : v < (e.freeVoice v).voices.limit := by
        rw [limit_freeVoice]
        exact (VoicePool.choose_steal hchoice).1
      have hi' : i < (e.freeVoice v).tracks.size := by rwa [tracks_size_freeVoice]
      -- the track itself may be the one that loses a voice
      have hcount : ((e.freeVoice v).track i).voicesActive ≤ (e.track i).voicesActive := by
        rw [track_freeVoice]
        split
        · rw [Track.voicesActive_voiceFreed]
          exact Nat.sub_le _ _
        · exact Nat.le_refl _
      dsimp only
      rw [freeVoice_eq h, ok_bind]
      exact ⟨startVoice_eq hfreed hv hi' (by omega) _ _ _, hfreed.startVoice hv hi' _ _ _⟩

/-- The entries of a patch in the table of patch voices. -/
def voiceIndices (b : PatchBank) (patch : UInt16) : Except Fault (List Nat) :=
  match b.patch? patch with
  | none => return []
  | some p => do
    let _ ← unsigned 64 (p.firstVoice.toNat + p.voiceCount.toNat)
    return b.voiceIndices patch

theorem voiceIndices_eq (b : PatchBank) (patch : UInt16) :
    voiceIndices b patch = .ok (b.voiceIndices patch) := by
  unfold voiceIndices
  split
  · next hnone => simp [PatchBank.voiceIndices, PatchBank.voiceRange, hnone]
  · next p _ =>
    have hfirst := p.firstVoice.toNat_lt
    have hcount := p.voiceCount.toNat_lt
    rw [unsigned_eq (by omega), ok_bind, pure_eq]

/-- The range of a patch is within the table. -/
theorem lt_of_mem_voiceIndices {b : PatchBank} {patch : UInt16} {index : Nat}
    (h : index ∈ b.voiceIndices patch) : index < b.voices.size := by
  unfold PatchBank.voiceIndices PatchBank.voiceRange at h
  cases hpatch : b.patch? patch with
  | none => simp [hpatch] at h
  | some p =>
    simp only [hpatch] at h
    split at h
    · simp only [List.mem_range'_1] at h
      omega
    · simp at h

/-- Whether a patch voice sounds for a note. -/
def sounds (b : PatchBank) (note : UInt8) (p : PatchVoice) : Bool :=
  (b.sample? p.sample).any Sample.isLoaded && p.answers note

/-- Plays a key on a track. Every patch voice of the patch is looked up. -/
def noteOn (e : Engine σ) (i : Nat) (key velocity : UInt8) : Except Fault (Engine σ) := do
  let _ ← get e.tracks i
  match e.keyMeaning? i key with
  | none => return e
  | some (patch, note) =>
    let bank := e.module.patches
    let indices ← voiceIndices bank patch
    indices.foldlM (fun e index => do
      let p ← get bank.voices index
      if sounds bank note p then playNote e i (UInt16.ofNat index) note velocity
      else return e) e

theorem noteOn_eq (h : Firm held e) {i : Nat} (hi : i < e.tracks.size) (key velocity : UInt8) :
    noteOn e i key velocity = .ok (e.noteOn i key velocity) ∧
      Firm held (e.noteOn i key velocity) := by
  unfold noteOn Engine.noteOn
  rw [get_track hi, ok_bind]
  cases e.keyMeaning? i key with
  | none => exact ⟨rfl, h⟩
  | some meaning =>
    obtain ⟨patch, note⟩ := meaning
    dsimp only
    unfold soundingVoices
    rw [voiceIndices_eq, ok_bind, List.foldl_filter]
    refine (foldlM_eq (fun l e' => (Firm held e' ∧ i < e'.tracks.size) ∧
      ∀ index ∈ l, index < e.module.patches.voices.size) (fun index l e' hall => ?_)
      (e.module.patches.voiceIndices patch) e
      ⟨⟨h, hi⟩, fun index => lt_of_mem_voiceIndices⟩).imp id fun hdone => hdone.1.1
    obtain ⟨⟨hfirm, hlt⟩, hindices⟩ := hall
    have hindex := hindices index List.mem_cons_self
    have hrest : ∀ k ∈ l, k < e.module.patches.voices.size :=
      fun k hk => hindices k (List.mem_cons_of_mem index hk)
    have hentry : e.module.patches.voice? index = some e.module.patches.voices[index] :=
      Array.getElem?_eq_getElem hindex
    obtain ⟨hplayed, hfirm'⟩ := playNote_eq hfirm hlt (UInt16.ofNat index) note velocity
    rw [get_eq hentry, ok_bind, hentry]
    dsimp only
    unfold sounds
    split
    · next hsounds =>
      refine ⟨hplayed, ⟨hfirm', ?_⟩, hrest⟩
      rwa [tracks_size_playNote]
    · exact ⟨rfl, ⟨hfirm, hlt⟩, hrest⟩

/-! ## Upkeep -/

/-- Frees every voice whose release is over. -/
def freeExpired (e : Engine σ) : Except Fault (Engine σ) :=
  let now := e.clock.ms
  (List.range e.voices.limit).foldlM
    (fun e v => if (e.voice v).expired now then freeVoice e v else return e) e

/-- Frees every voice that the chip reports silent. -/
def freeSilent (e : Engine σ) : Except Fault (Engine σ) :=
  let (status, chip) := SoundChip.pollKeys e.chip
  (List.range e.voices.limit).foldlM (fun e v => do
      inside hardwareVoices v
      if status v = .off && (e.voice v).active then freeVoice e v else return e)
    { e with chip }

/-- The upkeep of the voices at the end of a tick. -/
def serviceVoices (e : Engine σ) : Except Fault (Engine σ) := do
  let e ← freeExpired e
  freeSilent e.flushReleases

omit [SoundChip σ] in
theorem freeExpired_eq (h : Firm held e) :
    freeExpired e = .ok e.freeExpired ∧ Firm held e.freeExpired := by
  refine foldlM_eq (fun _ e => Firm held e) (fun v _ e he => ?_) _ e h
  split
  · exact ⟨freeVoice_eq he v, he.freeVoice v⟩
  · exact ⟨rfl, he⟩

theorem freeSilent_eq (h : Firm held e) :
    freeSilent e = .ok e.freeSilent ∧ Firm held e.freeSilent := by
  have hlimit := h.manned.limit_le
  refine (foldlM_eq (fun l e => Firm held e ∧ ∀ v ∈ l, v < hardwareVoices)
    (fun v l e he => ?_) _ _ ⟨h.sound _ e.toRelease e.toMute, fun v hv =>
      Nat.lt_of_lt_of_le (List.mem_range.mp hv) hlimit⟩).imp id And.left
  obtain ⟨hfirm, hvoices⟩ := he
  have hrest : ∀ w ∈ l, w < hardwareVoices := fun w hw => hvoices w (List.mem_cons_of_mem v hw)
  rw [inside_eq (hvoices v List.mem_cons_self), ok_bind]
  split
  · exact ⟨freeVoice_eq hfirm v, hfirm.freeVoice v, hrest⟩
  · exact ⟨rfl, hfirm, hrest⟩

theorem serviceVoices_eq (h : Firm held e) :
    serviceVoices e = .ok e.serviceVoices ∧ Firm held e.serviceVoices := by
  obtain ⟨hexpired, hfirm⟩ := freeExpired_eq h
  unfold serviceVoices
  rw [hexpired, ok_bind]
  exact freeSilent_eq (hfirm.sound _ _ _)

end Chip

end SoundSequencer.Machine
