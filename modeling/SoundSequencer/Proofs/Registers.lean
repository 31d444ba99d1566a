/-
SoundSequencer.Proofs.Registers — the registers of the chip mirror the engine.

* `VoiceRegisters.program` is what a note programs when it starts.
  `Engine.Mirrored` says of every voice in use that its registers are what
  the engine would program for its note now.
* `Retains` relates two engines between which nothing is programmed and
  nothing that the programs depend on changes; most of what an engine does is
  such a step.
* Controls of a track write only the registers that they change.
  `Mirrored.pushLevels` and `Mirrored.bendPitch` say that those are all.
* `mirrored_calls` says that ticks, starts, stops, pauses and changes of
  settings leave the registers right, `mirrored_throughout` that whole runs do.
-/
import SoundSequencer.Proofs.Keying
import SoundSequencer.Proofs.OneTrack
import SoundSequencer.Proofs.WellFormed

namespace SoundSequencer

/-! ## Programs -/

/-- The registers that a note programs when it starts. -/
def VoiceRegisters.program (r : VoiceRegisters) :=
  (r.left, r.right, r.note, r.sampleNote, r.address, r.adsr1, r.adsr2)

/-- What a voice of the chip is programmed to. -/
def RecorderChip.program (chip : RecorderChip) (v : Nat) := (chip.voice v).registers.program

/-- The voice as far as its program depends on it. -/
def Voice.tune (v : Voice) := (v.track, v.note, v.velocity, v.patchVoice, v.sample)

/-- The track as far as the programs of its voices depend on it. -/
def Track.tune (t : Track) := (t.volume, t.pan, t.pitch, t.soundClass)

namespace RecorderChip

theorem program_mapVoices (chip : RecorderChip) (voices : VoiceSet) {f : ChipVoice → ChipVoice}
    (hf : ∀ voice, (f voice).registers.program = voice.registers.program) (v : Nat) :
    (chip.mapVoices voices f).program v = chip.program v := by
  unfold program
  rw [voice_mapVoices]
  split
  · exact hf _
  · rfl

theorem program_setKey (on : Bool) (voices : VoiceSet) (chip : RecorderChip) (v : Nat) :
    (setKey on voices chip).program v = chip.program v := by
  have hkeyed := program_mapVoices chip voices
    (f := fun voice => { voice with status := chip.keyedStatus on }) (fun _ => rfl) v
  unfold setKey
  cases on with
  | false => exact hkeyed
  | true => exact hkeyed

/-- A write to one voice is a write to no other. -/
theorem registers_writeRegisters {v : Nat} (hv : v < 32) (mask : RegisterMask)
    (registers : VoiceRegisters) (chip : RecorderChip) (w : Nat) :
    ((writeRegisters (VoiceSet.single v) mask registers chip).voice w).registers =
      if v = w ∧ w < chip.voices.size then (chip.voice w).registers.write mask registers
      else (chip.voice w).registers := by
  unfold writeRegisters
  rw [voice_mapVoices, VoiceSet.contains_single hv]
  by_cases hvw : v = w
  · by_cases hw : w < chip.voices.size <;> simp [hvw, hw]
  · simp [hvw]

end RecorderChip

namespace Engine

/-! ## The invariant -/

/-- The chip has the voices of the hardware and the pool no more; and every voice in use is
programmed as its note would be if it started now. -/
structure Mirrored (e : Engine RecorderChip) : Prop where
  size : e.chip.voices.size = hardwareVoices
  limit : e.voices.limit ≤ hardwareVoices
  program : ∀ v patch, (e.voice v).active = true → e.patchVoice? v = some patch →
    e.chip.program v = (e.startRegisters v patch).program

/-- The program of a voice depends on the instruments, the master settings, the voice and
its track alone. -/
theorem startRegisters_congr {σ : Type} {e e' : Engine σ} (hmodule : e'.module = e.module)
    (heffects : e'.effectVolume = e.effectVolume) (hmusic : e'.musicVolume = e.musicVolume)
    (hmode : e'.panMode = e.panMode) {v : Nat} (hvoice : (e'.voice v).tune = (e.voice v).tune)
    (htrack : (e'.track (e.voice v).track).tune = (e.track (e.voice v).track).tune)
    (patch : PatchVoice) : e'.startRegisters v patch = e.startRegisters v patch := by
  simp only [Voice.tune, Prod.mk.injEq] at hvoice
  simp only [Track.tune, Prod.mk.injEq] at htrack
  obtain ⟨hown, hnote, hvelocity, -, hsample⟩ := hvoice
  obtain ⟨hvolume, hpan, hpitch, hclass⟩ := htrack
  simp only [startRegisters, levels, classVolume, hmodule, heffects, hmusic, hmode, hown, hnote,
    hvelocity, hsample, hvolume, hpan, hpitch, hclass]

/-- No voice comes into use, those that stay have the program that they had, and it is the
one that they are to have as much as before. -/
structure Retains (e e' : Engine RecorderChip) : Prop where
  size : e'.chip.voices.size = e.chip.voices.size
  limit : e'.voices.limit = e.voices.limit
  active : ∀ v, (e'.voice v).active = true → (e.voice v).active = true
  patchVoice : ∀ v, (e'.voice v).active = true → e'.patchVoice? v = e.patchVoice? v
  wanted : ∀ v patch, (e'.voice v).active = true →
    (e'.startRegisters v patch).program = (e.startRegisters v patch).program
  program : ∀ v, e'.chip.program v = e.chip.program v

namespace Retains

theorem refl (e : Engine RecorderChip) : Retains e e :=
  ⟨rfl, rfl, fun _ h => h, fun _ _ => rfl, fun _ _ _ => rfl, fun _ => rfl⟩

theorem trans {a b c : Engine RecorderChip} (hab : Retains a b) (hbc : Retains b c) :
    Retains a c where
  size := hbc.size.trans hab.size
  limit := hbc.limit.trans hab.limit
  active v hv := hab.active v (hbc.active v hv)
  patchVoice v hv := (hbc.patchVoice v hv).trans (hab.patchVoice v (hbc.active v hv))
  wanted v patch hv := (hbc.wanted v patch hv).trans (hab.wanted v patch (hbc.active v hv))
  program v := (hbc.program v).trans (hab.program v)

theorem mirrored {e e' : Engine RecorderChip} (h : Retains e e') (he : e.Mirrored) :
    e'.Mirrored where
  size := h.size.trans he.size
  limit := by rw [h.limit]; exact he.limit
  program v patch hv hpatch := by
    rw [h.patchVoice v hv] at hpatch
    rw [h.program, h.wanted v patch hv]
    exact he.program v patch (h.active v hv) hpatch

end Retains

/-! ## What retains the programs -/

/-- Changes of tracks and voices that the programs do not depend on. -/
theorem retains_of_tunes {e e' : Engine RecorderChip} (hmodule : e'.module = e.module)
    (heffects : e'.effectVolume = e.effectVolume) (hmusic : e'.musicVolume = e.musicVolume)
    (hmode : e'.panMode = e.panMode) (hsize : e'.chip.voices.size = e.chip.voices.size)
    (hprogram : ∀ v, e'.chip.program v = e.chip.program v)
    (hlimit : e'.voices.limit = e.voices.limit)
    (hvoice : ∀ v, (e'.voice v).active = true →
      (e.voice v).active = true ∧ (e'.voice v).tune = (e.voice v).tune)
    (htrack : ∀ v, (e'.voice v).active = true →
      (e'.track (e.voice v).track).tune = (e.track (e.voice v).track).tune) : Retains e e' where
  size := hsize
  limit := hlimit
  active v hv := (hvoice v hv).1
  patchVoice v hv := by
    have hplays : (e'.voice v).patchVoice = (e.voice v).patchVoice :=
      congrArg (·.2.2.2.1) (hvoice v hv).2
    unfold patchVoice?
    rw [hmodule, hplays]
  wanted v patch hv := by
    rw [startRegisters_congr hmodule heffects hmusic hmode (hvoice v hv).2 (htrack v hv)]
  program := hprogram

/-- What the programs depend on. -/
def sounding (e : Engine RecorderChip) :=
  (e.module, e.tracks, e.voices, e.effectVolume, e.musicVolume, e.panMode)

/-- Slots, counts, clock, fades and listeners have no part in the programs. -/
theorem retains_of_sounding {e e' : Engine RecorderChip} (h : e'.sounding = e.sounding)
    (hsize : e'.chip.voices.size = e.chip.voices.size)
    (hprogram : ∀ v, e'.chip.program v = e.chip.program v) : Retains e e' := by
  simp only [sounding, Prod.mk.injEq] at h
  obtain ⟨hmodule, htracks, hvoices, heffects, hmusic, hmode⟩ := h
  have hvoice : ∀ v, e'.voice v = e.voice v := fun v => by unfold Engine.voice; rw [hvoices]
  have htrack : ∀ i, e'.track i = e.track i := fun i => by unfold Engine.track; rw [htracks]
  refine retains_of_tunes hmodule heffects hmusic hmode hsize hprogram (by rw [hvoices])
    (fun v hv => ?_) fun v _ => by rw [htrack]
  rw [hvoice] at hv ⊢
  exact ⟨hv, rfl⟩

/-- A change of a track that its voices do not hear, or that has none to hear it. -/
theorem retains_modifyTrack (e : Engine RecorderChip) (i : Nat) {f : Track → Track}
    (hf : (f (e.track i)).tune = (e.track i).tune ∨
      ∀ v, (e.voice v).active = true → (e.voice v).track ≠ i) :
    Retains e (e.modifyTrack i f) := by
  refine retains_of_tunes rfl rfl rfl rfl rfl (fun _ => rfl) rfl (fun _ hv => ⟨hv, rfl⟩) ?_
  intro v hv
  rw [track_modifyTrack]
  split
  · next h =>
    rcases hf with hf | hf
    · rw [← h.1, hf]
    · exact absurd h.1.symm (hf v hv)
  · rfl

theorem retains_modifySlot (e : Engine RecorderChip) (s : Nat) (f : Slot → Slot) :
    Retains e (e.modifySlot s f) := retains_of_sounding rfl rfl fun _ => rfl

/-- An update of voices that their programs do not depend on. -/
theorem retains_update {e e' : Engine RecorderChip} {q : Voice → Bool} {f : Voice → Voice}
    (hmodule : e'.module = e.module) (heffects : e'.effectVolume = e.effectVolume)
    (hmusic : e'.musicVolume = e.musicVolume) (hmode : e'.panMode = e.panMode)
    (hchip : e'.chip = e.chip) (htracks : e'.tracks = e.tracks)
    (hvoices : e'.voices = e.voices.update q f) (hactive : ∀ v, (f v).active = v.active)
    (htune : ∀ v, (f v).tune = v.tune) : Retains e e' := by
  refine retains_of_tunes hmodule heffects hmusic hmode (by rw [hchip]) (fun v => by rw [hchip])
    (by rw [hvoices, VoicePool.limit_update]) (fun v hv => ?_) fun v _ => by
      unfold Engine.track; rw [htracks]
  unfold Engine.voice at hv ⊢
  rw [hvoices] at hv ⊢
  rw [VoicePool.voice_update_of Voice.active e.voices q hactive] at hv
  exact ⟨hv, VoicePool.voice_update_of Voice.tune e.voices q htune v⟩

theorem retains_pauseTrack (e : Engine RecorderChip) (i : Nat) : Retains e (e.pauseTrack i) := by
  unfold pauseTrack
  split
  · exact .refl e
  · exact (retains_modifyTrack e i (.inl rfl)).trans (retains_modifySlot _ _ _)

theorem retains_retireTrack (e : Engine RecorderChip) (i : Nat) :
    Retains e (e.retireTrack i) := by
  have hleave : ∀ e : Engine RecorderChip, Retains e (e.leavePool i) := by
    intro e
    refine (retains_modifyTrack e i (f := fun t =>
      { t with flags := { t.flags with active := false } }) (.inl rfl)).trans ?_
    exact retains_of_sounding rfl rfl fun _ => rfl
  unfold retireTrack
  dsimp only
  refine (retains_pauseTrack e i).trans (.trans ?_ (retains_modifyTrack _ i (.inl rfl)))
  split
  · exact .refl _
  · exact hleave _

theorem retains_releaseVoices (e : Engine RecorderChip) (i : Nat) :
    Retains e (e.releaseVoices i) := by
  unfold releaseVoices
  split
  · exact .refl e
  · exact retains_update rfl rfl rfl rfl rfl rfl rfl (fun _ => rfl) fun _ => rfl

theorem retains_muteTrack (e : Engine RecorderChip) (i : Nat) : Retains e (e.muteTrack i) := by
  unfold muteTrack
  split
  · exact .refl e
  · exact retains_releaseVoices e i

theorem retains_turnOff (e : Engine RecorderChip) (i : Nat) : Retains e (e.turnOff i) := by
  rw [turnOff_eq]
  split
  · exact retains_retireTrack e i
  · split
    · exact retains_retireTrack e i
    · refine (retains_releaseVoices e i).trans ?_
      exact (retains_modifyTrack _ i (.inl rfl)).trans (retains_modifySlot _ _ _)

theorem retains_forTracksOf (e : Engine RecorderChip) (s : Nat)
    {f : Engine RecorderChip → Nat → Engine RecorderChip} (hf : ∀ e i, Retains e (f e i)) :
    Retains e (e.forTracksOf s f) :=
  foldl_relates .refl (fun _ _ _ => .trans) hf _ e

theorem retains_endSequence (e : Engine RecorderChip) (s : Nat) : Retains e (e.endSequence s) :=
  retains_forTracksOf e s retains_turnOff

theorem retains_freeVoice (e : Engine RecorderChip) (v : Nat) : Retains e (e.freeVoice v) := by
  have hdrop : Retains e (e.dropVoice v) := by
    refine retains_of_tunes rfl rfl rfl rfl rfl (fun _ => rfl) (VoicePool.limit_vacate e.voices v)
      (fun w hw => ?_) fun w _ => ?_
    · have hread : (e.dropVoice v).voice w =
          if v = w ∧ (e.voice v).active then { e.voice v with active := false, release := false }
          else e.voice w := VoicePool.voice_vacate e.voices v w
      rw [hread] at hw ⊢
      split at hw
      · cases hw
      · next hother => rw [if_neg hother]; exact ⟨hw, rfl⟩
    · rw [track_dropVoice]
      split <;> rfl
  rw [freeVoice_eq]
  split
  · split
    · exact hdrop.trans (retains_retireTrack _ _)
    · exact hdrop
  · exact .refl e

theorem retains_noteOff (e : Engine RecorderChip) (i : Nat) (note : UInt8) :
    Retains e (e.noteOff i note) :=
  retains_update rfl rfl rfl rfl rfl rfl rfl (fun _ => rfl) fun _ => rfl

/-! ## Writing the registers of a track -/

/-- A voice of a list is written once, any other not at all. -/
theorem registers_foldl_write (e : Engine RecorderChip) (mask : RegisterMask)
    (registers : Voice → PatchVoice → VoiceRegisters) (l : List Nat) (chip : RecorderChip)
    (hl : ∀ v ∈ l, v < 32) (hnodup : l.Nodup) :
    let written := l.foldl (fun chip v =>
      match e.patchVoice? v with
      | none => chip
      | some patch =>
        SoundChip.writeRegisters (VoiceSet.single v) mask (registers (e.voice v) patch) chip) chip
    written.voices.size = chip.voices.size ∧
      (∀ v, v ∉ l → (written.voice v).registers = (chip.voice v).registers) ∧
      ∀ v patch, v ∈ l → v < chip.voices.size → e.patchVoice? v = some patch →
        (written.voice v).registers =
          (chip.voice v).registers.write mask (registers (e.voice v) patch) := by
  induction l generalizing chip with
  | nil => exact ⟨rfl, fun _ _ => rfl, fun v _ hv => absurd hv List.not_mem_nil⟩
  | cons w l ih =>
    obtain ⟨hw, hrest⟩ := List.nodup_cons.mp hnodup
    rw [List.foldl_cons]
    generalize hchip : (match e.patchVoice? w with
      | none => chip
      | some patch =>
        SoundChip.writeRegisters (VoiceSet.single w) mask (registers (e.voice w) patch) chip) =
      chip'
    -- the first write, or none
    have hsize : chip'.voices.size = chip.voices.size := by
      rw [← hchip]
      split
      · rfl
      · exact Array.size_mapIdx
    have hother : ∀ v, v ≠ w → (chip'.voice v).registers = (chip.voice v).registers := by
      intro v hv
      rw [← hchip]
      split
      · rfl
      · exact (RecorderChip.registers_writeRegisters (hl w List.mem_cons_self) mask _ chip v).trans
          (if_neg fun hp => hv hp.1.symm)
    have hfirst : ∀ patch, w < chip.voices.size → e.patchVoice? w = some patch →
        (chip'.voice w).registers =
          (chip.voice w).registers.write mask (registers (e.voice w) patch) := by
      intro patch hlt hpatch
      rw [← hchip, hpatch]
      exact (RecorderChip.registers_writeRegisters (hl w List.mem_cons_self) mask _ chip w).trans
        (if_pos ⟨rfl, hlt⟩)
    obtain ⟨ihsize, ihother, ihlisted⟩ :=
      ih chip' (fun v hv => hl v (List.mem_cons_of_mem w hv)) hrest
    refine ⟨ihsize.trans hsize, fun v hv => ?_, fun v patch hv hlt hpatch => ?_⟩
    · rw [List.mem_cons, not_or] at hv
      rw [ihother v hv.2, hother v hv.1]
    · rcases List.mem_cons.mp hv with rfl | hmem
      · rw [ihother v hw, hfirst patch hlt hpatch]
      · have hne : v ≠ w := fun heq => hw (heq ▸ hmem)
        rw [ihlisted v patch hmem (by rw [hsize]; exact hlt) hpatch, hother v hne]

/-- Where a track is changed and the registers of its voices are written accordingly, they
are right again if the registers that are not written are right anyway. -/
theorem Mirrored.writeOwned {e : Engine RecorderChip} (h : e.Mirrored) (hvoices : e.Accounted)
    (i : Nat) {f : Track → Track} (hf : ∀ t, (f t).voicesActive = t.voicesActive)
    (mask : RegisterMask) (registers : Voice → PatchVoice → VoiceRegisters)
    (hwrite : ∀ v patch (old : VoiceRegisters), (e.voice v).active = true →
      (e.voice v).track = i → old.program = (e.startRegisters v patch).program →
      (old.write mask (registers (e.voice v) patch)).program =
        ((e.modifyTrack i f).startRegisters v patch).program) :
    ((e.modifyTrack i f).writeOwned i mask registers).Mirrored := by
  have hcount : ((e.modifyTrack i f).track i).voicesActive = (e.track i).voicesActive := by
    rw [track_modifyTrack]
    split
    · exact hf _
    · rfl
  have hother : ∀ v patch, (e.voice v).track ≠ i →
      (e.modifyTrack i f).startRegisters v patch = e.startRegisters v patch := by
    intro v patch hv
    refine @startRegisters_congr _ e (e.modifyTrack i f) rfl rfl rfl rfl v rfl ?_ patch
    rw [track_modifyTrack, if_neg fun hp => hv hp.1.symm]
  have hlt : ∀ v ∈ e.voices.ownedBy i, v < 32 := by
    intro v hv
    have hlimit := (VoicePool.mem_select.mp hv).1
    have hhard := h.limit
    simp only [hardwareVoices] at hhard
    omega
  have hnodup : (e.voices.ownedBy i).Nodup := List.nodup_range.filter _
  unfold Engine.writeOwned
  rw [hcount]
  split
  case isTrue hnone =>
    -- a track that counts no voice owns none
    refine (retains_modifyTrack e i (.inr fun v hv heq => ?_)).mirrored h
    have hsounds := hvoices.sounds hv
    rw [heq] at hsounds
    exact hsounds.counts hnone
  case isFalse =>
    obtain ⟨hsize, hrest, hlisted⟩ := registers_foldl_write (e.modifyTrack i f) mask registers
      (e.voices.ownedBy i) e.chip hlt hnodup
    refine ⟨hsize.trans h.size, h.limit, fun v patch hv hpatch => ?_⟩
    have hv' : (e.voice v).active = true := hv
    have hpatch' : e.patchVoice? v = some patch := hpatch
    have hright := h.program v patch hv' hpatch'
    by_cases hown : (e.voice v).track = i
    · have hmem : v ∈ e.voices.ownedBy i := by
        refine VoicePool.mem_select.mpr ⟨lt_limit_of_active hv', ?_⟩
        simp only [Voice.ownedBy, Bool.and_eq_true, beq_iff_eq]
        exact ⟨hv', hown⟩
      have hvsize : v < e.chip.voices.size := by
        have hlimit := (VoicePool.mem_select.mp hmem).1
        have hhard := h.limit
        rw [h.size]
        omega
      refine Eq.trans ?_ (hwrite v patch (e.chip.voice v).registers hv' hown hright)
      exact congrArg VoiceRegisters.program (hlisted v patch hmem hvsize hpatch)
    · have hnot : v ∉ e.voices.ownedBy i := by
        intro hmem
        have howned := (VoicePool.mem_select.mp hmem).2
        simp only [Voice.ownedBy, Bool.and_eq_true, beq_iff_eq] at howned
        exact hown howned.2
      refine Eq.trans (congrArg VoiceRegisters.program (hrest v hnot)) ?_
      refine Eq.trans hright ?_
      exact (congrArg VoiceRegisters.program (hother v patch hown)).symm

/-- A new volume or pan of a track reaches all its voices with their levels. -/
theorem Mirrored.pushLevels {e : Engine RecorderChip} (h : e.Mirrored) (hvoices : e.Accounted)
    (i : Nat) {f : Track → Track} (hcount : ∀ t, (f t).voicesActive = t.voicesActive)
    (hpitch : ∀ t, (f t).pitch = t.pitch) : ((e.modifyTrack i f).pushLevels i).Mirrored := by
  refine h.writeOwned hvoices i hcount .levels _ fun v patch old _ hown hold => ?_
  have hbend : ((e.modifyTrack i f).track i).pitch = (e.track i).pitch := by
    rw [track_modifyTrack]
    split
    · exact hpitch _
    · rfl
  have hvoice : (e.modifyTrack i f).voice v = e.voice v := rfl
  simp only [VoiceRegisters.program, startRegisters, Prod.mk.injEq, hown] at hold
  obtain ⟨-, -, hnote, hsample, haddress, hadsr1, hadsr2⟩ := hold
  simp only [VoiceRegisters.program, VoiceRegisters.write, RegisterMask.levels, startRegisters,
    hvoice, hown, hbend, hnote, hsample, haddress, hadsr1, hadsr2, if_true, Bool.false_eq_true,
    if_false]
  rfl

/-- A new bend of a track reaches all its voices with their notes. -/
theorem Mirrored.bendPitch {e : Engine RecorderChip} (h : e.Mirrored) (hvoices : e.Accounted)
    (i : Nat) (pitch : Int16) : (e.bendPitch i pitch).Mirrored := by
  unfold Engine.bendPitch
  split
  · exact h
  · refine h.writeOwned hvoices i (f := fun t => { t with pitch }) (fun _ => rfl)
      { note := true } _ fun v patch old hv hown hold => ?_
    have hvoice : (e.modifyTrack i fun t => { t with pitch }).voice v = e.voice v := rfl
    have hsize : i < e.tracks.size := lt_size_of_isActive (hown ▸ (hvoices.owner v hv).1)
    have htrack : (e.modifyTrack i fun t => { t with pitch }).track i =
        { e.track i with pitch } := by
      rw [track_modifyTrack, if_pos ⟨rfl, hsize⟩]
    simp only [VoiceRegisters.program, startRegisters, Prod.mk.injEq, hown] at hold
    obtain ⟨hleft, hright, -, hsample, haddress, hadsr1, hadsr2⟩ := hold
    simp only [VoiceRegisters.program, VoiceRegisters.write, startRegisters, hvoice, hown, htrack,
      levels, hleft, hright, hsample, haddress, hadsr1, hadsr2, if_true, Bool.false_eq_true,
      if_false]
    rfl

/-- A new pan of a track reaches all its voices unless pans are off, and then they do not
hear it. -/
theorem Mirrored.setTrackPan {e : Engine RecorderChip} (h : e.Mirrored) (hvoices : e.Accounted)
    (i : Nat) (pan : UInt8) : (e.setTrackPan i pan).Mirrored := by
  unfold Engine.setTrackPan
  dsimp only
  split
  case isTrue hoff =>
    have hoff' : e.panMode = .off := hoff
    have hread : ∀ j, ((e.modifyTrack i fun t => { t with pan }).track j).volume =
        (e.track j).volume ∧
        ((e.modifyTrack i fun t => { t with pan }).track j).pitch = (e.track j).pitch ∧
        ((e.modifyTrack i fun t => { t with pan }).track j).soundClass =
          (e.track j).soundClass := by
      intro j
      rw [track_modifyTrack]
      split <;> exact ⟨rfl, rfl, rfl⟩
    refine ⟨h.size, h.limit, fun v patch hv hpatch => (h.program v patch hv hpatch).trans ?_⟩
    have hvoice : (e.modifyTrack i fun t => { t with pan }).voice v = e.voice v := rfl
    have hmode : (e.modifyTrack i fun t => { t with pan }).panMode = .off := hoff
    obtain ⟨hvolume, hpitch, hclass⟩ := hread (e.voice v).track
    simp only [startRegisters, levels, hvoice, hoff', hmode, Voice.voicePan, hvolume, hpitch,
      hclass]
    rfl
  case isFalse => exact h.pushLevels hvoices i (fun _ => rfl) fun _ => rfl

/-- No voice belongs to a track that plays no notes. -/
theorem Accounted.owner_ne {σ : Type} {e : Engine σ} (h : e.Accounted) {i : Nat}
    (hsilent : (e.track i).driver = .silent) (v : Nat) (hv : (e.voice v).active = true) :
    (e.voice v).track ≠ i := by
  rintro rfl
  rw [(h.owner v hv).2] at hsilent
  cases hsilent

/-! ## Notes -/

section Reverb

variable (e : Engine RecorderChip) (v : Nat)

theorem retains_routeReverb : Retains e (e.routeReverb v) := by
  unfold routeReverb
  dsimp only
  split
  · exact .refl e
  · exact retains_of_sounding rfl Array.size_mapIdx
      (RecorderChip.program_mapVoices e.chip _ fun _ => rfl)

theorem voice_routeReverb (w : Nat) : (e.routeReverb v).voice w = e.voice w := by
  unfold routeReverb
  dsimp only
  split <;> rfl

theorem patchVoice?_routeReverb (w : Nat) : (e.routeReverb v).patchVoice? w = e.patchVoice? w := by
  unfold routeReverb
  dsimp only
  split <;> rfl

end Reverb

/-- A voice that is keyed on is programmed for its note, and no other voice is. -/
theorem mirrored_keyOn {e : Engine RecorderChip} (hsize : e.chip.voices.size = hardwareVoices)
    (hlimit : e.voices.limit ≤ hardwareVoices) {v : Nat} (hv : v < hardwareVoices)
    {patch : PatchVoice} (hpatch : e.patchVoice? v = some patch)
    (hother : ∀ w other, v ≠ w → (e.voice w).active = true → e.patchVoice? w = some other →
      e.chip.program w = (e.startRegisters w other).program) :
    (e.keyOn v patch).Mirrored := by
  have hroute := retains_routeReverb e v
  have hsize' : (e.routeReverb v).chip.voices.size = hardwareVoices := hroute.size.trans hsize
  have hv32 : v < 32 := by
    simp only [hardwareVoices] at hv
    omega
  have hprogram : ∀ w, (e.keyOn v patch).chip.program w =
      if v = w then ((e.routeReverb v).startRegisters v patch).program else e.chip.program w := by
    intro w
    refine (RecorderChip.program_setKey true _ _ w).trans ?_
    refine (congrArg VoiceRegisters.program
      (RecorderChip.registers_writeRegisters hv32 _ _ _ w)).trans ?_
    by_cases hvw : v = w
    · subst hvw
      rw [if_pos ⟨rfl, by rw [hsize']; exact hv⟩, if_pos rfl]
      rfl
    · rw [if_neg fun hp => hvw hp.1, if_neg hvw]
      exact hroute.program w
  refine ⟨?_, Nat.le_trans (Nat.le_of_eq hroute.limit) hlimit, fun w other hw hplays => ?_⟩
  · refine (RecorderChip.size_setKey _ _ _).trans ?_
    exact Array.size_mapIdx.trans hsize'
  · have hw' : ((e.routeReverb v).voice w).active = true := hw
    have hplays' : (e.routeReverb v).patchVoice? w = some other := hplays
    rw [patchVoice?_routeReverb] at hplays'
    rw [hprogram]
    split
    · next hvw =>
      subst hvw
      rw [hpatch, Option.some.injEq] at hplays'
      rw [← hplays']
      rfl
    · next hvw =>
      rw [voice_routeReverb] at hw'
      rw [hother w other hvw hw' hplays']
      exact (hroute.wanted w other (by rwa [voice_routeReverb])).symm

theorem Mirrored.startVoice {e : Engine RecorderChip} (h : e.Mirrored) {v : Nat}
    (hv : v < e.voices.limit) (i : Nat) (patchVoice : UInt16) (note velocity : UInt8) :
    (e.startVoice v i patchVoice note velocity).Mirrored := by
  unfold Engine.startVoice
  split
  · exact h
  · next patch hpatch =>
    dsimp only
    generalize hstarted : modifyTrack _ i _ = e'
    have hvoice : ∀ w, v ≠ w → e'.voice w = e.voice w := by
      intro w hvw
      rw [← hstarted]
      exact (VoicePool.voice_occupy e.voices v w _ hv).trans (if_neg hvw)
    have htune : ∀ j, (e'.track j).tune = (e.track j).tune := by
      intro j
      rw [← hstarted, track_modifyTrack]
      split <;> rfl
    have hsame : e'.module = e.module ∧ e'.effectVolume = e.effectVolume ∧
        e'.musicVolume = e.musicVolume ∧ e'.panMode = e.panMode ∧ e'.chip = e.chip := by
      rw [← hstarted]
      exact ⟨rfl, rfl, rfl, rfl, rfl⟩
    obtain ⟨hmodule, heffects, hmusic, hmode, hchip⟩ := hsame
    have hlimit : e'.voices.limit = e.voices.limit := by
      rw [← hstarted]
      exact VoicePool.limit_occupy _ _ _
    have hplays : (e'.voice v).patchVoice = patchVoice := by
      rw [← hstarted]
      refine (congrArg Voice.patchVoice (VoicePool.voice_occupy e.voices v v _ hv)).trans ?_
      rw [if_pos rfl]
    refine mirrored_keyOn (by rw [hchip, h.size]) (by rw [hlimit]; exact h.limit)
      (Nat.lt_of_lt_of_le hv h.limit) ?_ fun w other hvw hw hplays => ?_
    · rw [patchVoice?, hmodule, hplays, hpatch]
    · rw [hvoice w hvw] at hw
      rw [patchVoice?, hmodule, hvoice w hvw] at hplays
      rw [hchip, startRegisters_congr hmodule heffects hmusic hmode (by rw [hvoice w hvw])
        (htune _)]
      exact h.program w other hw hplays

theorem Mirrored.playNote {e : Engine RecorderChip} (h : e.Mirrored) (i : Nat)
    (patchVoice : UInt16) (note velocity : UInt8) :
    (e.playNote i patchVoice note velocity).Mirrored := by
  rcases playNote_eq e i patchVoice note velocity with heq | ⟨-, v, hv, heq⟩
  · rw [heq]
    exact h
  · rw [heq]
    exact ((retains_freeVoice e v).mirrored h).startVoice (by rwa [limit_freeVoice]) i patchVoice
      note velocity

theorem Mirrored.noteOn {e : Engine RecorderChip} (h : e.Mirrored) (i : Nat)
    (key velocity : UInt8) : (e.noteOn i key velocity).Mirrored := by
  unfold Engine.noteOn
  split
  · exact h
  · next patch note _ =>
    exact foldl_keeps (f := fun e index => e.playNote i (UInt16.ofNat index) note velocity)
      (fun _ e => e.Mirrored) (fun index _ _ he => he.playNote i _ note velocity) _ e h

/-! ## Commands -/

/-- Every command of the driver leaves the registers right. -/
theorem Mirrored.driverCommand {e : Engine RecorderChip} (h : e.Mirrored)
    (hvoices : e.Accounted) (i : Nat) (c : Command) : (e.driverCommand i c).Mirrored := by
  unfold Engine.driverCommand
  split
  case h_1 hsilent =>
    exact (retains_modifyTrack e i (.inr (hvoices.owner_ne hsilent))).mirrored h
  case h_2 =>
    unfold voiceCommand
    split
    · exact (retains_modifyTrack e i (.inl rfl)).mirrored h
    · exact h.bendPitch hvoices i _
    · exact h.pushLevels hvoices i (fun _ => rfl) fun _ => rfl
    · exact h.setTrackPan hvoices i _
    · exact h.noteOn i _ _
    · exact (retains_noteOff e i _).mirrored h
    · exact h

theorem retains_readDelta? {e e' : Engine RecorderChip} {i offset : Nat}
    (h : e.readDelta? i offset = some e') : Retains e e' := by
  unfold readDelta? at h
  simp only [bind, Option.bind_eq_some_iff, pure, Option.some.injEq] at h
  obtain ⟨_, _, _, _, rfl⟩ := h
  exact retains_modifyTrack e i (.inl rfl)

theorem retains_nextEvent (e : Engine RecorderChip) (i offset : Nat) :
    Retains e (e.nextEvent i offset) := by
  unfold nextEvent
  split
  · next h => exact retains_readDelta? h
  · split
    · exact retains_endSequence e _
    · exact .refl e

theorem retains_jump (e : Engine RecorderChip) (i : Nat) (label : Int16) :
    Retains e (e.jump i label).1 := by
  unfold jump
  split
  · exact .refl e
  · exact retains_modifyTrack e i (.inl rfl)

theorem retains_gosub (e : Engine RecorderChip) (i : Nat) (label : Int16) :
    Retains e (e.gosub i label).1 := by
  unfold gosub
  split
  · exact .refl e
  · dsimp only
    split
    · exact .refl e
    · next t h =>
      refine retains_modifyTrack e i (.inl ?_)
      unfold Track.pushReturn? at h
      split at h
      · cases h
        rfl
      · cases h

theorem retains_goBack (e : Engine RecorderChip) (i : Nat) : Retains e (e.goBack i).1 := by
  unfold goBack
  split
  · exact .refl e
  · next address t h =>
    have hpop : Retains e (e.modifyTrack i fun _ => t) := by
      refine retains_modifyTrack e i (.inl ?_)
      unfold Track.popReturn? at h
      split at h
      · cases h
      · cases h
        rfl
    dsimp only
    split
    · exact hpop
    · next hread => exact hpop.trans (retains_readDelta? hread)

theorem retains_endTrack (e : Engine RecorderChip) (i : Nat) : Retains e (e.endTrack i).1 := by
  unfold endTrack
  dsimp only
  split
  · next h =>
    split at h
    · exact retains_readDelta? h
    · cases h
  · exact retains_turnOff e i

theorem retains_forSequence (e : Engine RecorderChip) (i : Nat)
    {move : Engine RecorderChip → Nat → Engine RecorderChip × Flow}
    (hmove : ∀ e j, Retains e (move e j).1) : Retains e (e.forSequence i move).1 := by
  unfold forSequence
  refine foldl_relates (r := fun p q : Engine RecorderChip × Flow => Retains p.1 q.1)
    (fun p => .refl p.1) (fun _ _ _ => .trans) (fun p j => ?_) _ (e, Flow.advance)
  exact hmove p.1 j

/-- No command of the sequencer programs anything or changes what is to be programmed. -/
theorem retains_command (e : Engine RecorderChip) (i : Nat) (c : Command) :
    Retains e (e.command i c).1 := by
  unfold command
  dsimp only
  split
  case h_1 =>
    unfold hearMark
    split
    · exact .refl e
    · exact retains_of_sounding rfl rfl fun _ => rfl
  case h_2 =>
    split
    · exact (retains_modifySlot e _ _).trans (retains_jump _ i _)
    · exact .refl e
  case h_3 =>
    split
    · exact (retains_modifySlot e _ _).trans (retains_jump _ i _)
    · exact .refl e
  case h_4 => exact retains_modifySlot e _ _
  case h_5 => exact retains_modifySlot e _ _
  case h_6 => exact retains_modifySlot e _ _
  case h_7 => exact retains_forTracksOf e _ fun e _ => retains_modifyTrack e _ (.inl rfl)
  case h_8 =>
    split
    · exact .refl e
    · exact retains_forSequence e i fun e j => retains_gosub e j _
  case h_9 =>
    split
    · exact .refl e
    · exact retains_forSequence e i fun e j => retains_jump e j _
  case h_10 => exact retains_forSequence e i retains_goBack
  case h_11 => exact retains_endSequence e _
  case h_12 => exact retains_modifyTrack e i (.inl rfl)
  case h_13 => exact retains_gosub e i _
  case h_14 =>
    have hjump := retains_jump e i (c.signedWord 1)
    split
    · next h =>
      rw [h] at hjump
      exact hjump.trans (retains_modifyTrack _ i (.inl rfl))
    · next h =>
      rw [h] at hjump
      exact hjump
  case h_15 => exact retains_goBack e i
  case h_16 => exact retains_endTrack e i
  case h_17 => exact .refl e

/-! ## Ticks -/

theorem Mirrored.stepTrack {e : Engine RecorderChip} (h : e.Mirrored) (hform : e.WellFormed)
    (i : Nat) : (e.stepTrack i).Mirrored := by
  unfold Engine.stepTrack
  dsimp only
  split
  · exact (retains_endSequence e _).mirrored h
  · next c _ =>
    split
    · exact (retains_nextEvent _ i _).mirrored (h.driverCommand hform.voices i c)
    · split
      · have hcommand := (retains_command e i c).mirrored h
        split
        · exact (retains_nextEvent _ i _).mirrored hcommand
        · exact hcommand
      · exact (retains_endSequence e _).mirrored h

theorem Mirrored.runDue (i : Nat) : ∀ (budget : Nat) {e : Engine RecorderChip}, e.Mirrored →
    e.WellFormed → (runDue budget e i).Mirrored
  | 0, e, h, _ => by
    unfold Engine.runDue
    split
    · exact (retains_turnOff e i).mirrored h
    · exact h
  | budget + 1, e, h, hform => by
    unfold Engine.runDue
    split
    · next hdue =>
      have hpay : Tuned e (e.payDelta i) := tuned_modifyTrack e i rfl
      have hpaid : (e.payDelta i).WellFormed := hform.moves hpay.moves
      have hrun : ((e.payDelta i).track i).isRunning = true := by
        rw [hpay.isRunning, isRunning_of_isDue hdue]
      refine Mirrored.runDue i budget ?_ (hpaid.moves (moves_stepTrack hrun))
      exact ((retains_modifyTrack e i (.inl rfl)).mirrored h).stepTrack hpaid i
    · exact h

theorem Mirrored.runTrack {e : Engine RecorderChip} (h : e.Mirrored) (hform : e.WellFormed)
    (i : Nat) : (e.runTrack i).Mirrored := by
  have hadvance : Tuned e (e.modifyTrack i Track.advance) := tuned_modifyTrack e i rfl
  have hadvanced : (e.modifyTrack i Track.advance).Mirrored :=
    (retains_modifyTrack e i (.inl rfl)).mirrored h
  unfold Engine.runTrack
  dsimp only
  split
  · exact (retains_turnOff _ i).mirrored hadvanced
  · exact hadvanced.runDue i _ (hform.moves hadvance.moves)

theorem Mirrored.runTracks {e : Engine RecorderChip} (h : e.Mirrored) (hform : e.WellFormed) :
    e.runTracks.Mirrored := by
  unfold Engine.runTracks
  generalize e.trackIds = ids
  induction ids generalizing e with
  | nil => exact h
  | cons i ids ih =>
    rw [List.foldl_cons]
    split
    · next hrun => exact ih (h.runTrack hform i) (hform.moves (moves_runTrack hrun))
    · exact ih h hform

theorem retains_freeWhere (q : Engine RecorderChip → Nat → Bool) (l : List Nat)
    (e : Engine RecorderChip) :
    Retains e (l.foldl (fun e v => if q e v then e.freeVoice v else e) e) := by
  refine foldl_relates .refl (fun _ _ _ => .trans) (fun e v => ?_) l e
  split
  · exact retains_freeVoice e v
  · exact .refl e

/-- The mute release has registers of its own, and keys have none. -/
theorem retains_flushReleases (e : Engine RecorderChip) : Retains e e.flushReleases := by
  have hmuted : ∀ v, (RecorderChip.writeRegisters e.toMute .release
      { releaseMode := .exponential, releaseRate := e.muteRate } e.chip).program v =
        e.chip.program v :=
    RecorderChip.program_mapVoices e.chip e.toMute fun _ => rfl
  have hkeyed : ∀ chip : RecorderChip, chip.voices.size = e.chip.voices.size →
      (∀ v, chip.program v = e.chip.program v) →
      Retains e { e with
        chip := if e.toRelease ||| e.toMute = 0 then chip
          else RecorderChip.setKey false (e.toRelease ||| e.toMute) chip
        toRelease := 0
        toMute := 0 } := by
    intro chip hsize hprogram
    split
    · exact retains_of_sounding rfl hsize hprogram
    · exact retains_of_sounding rfl ((RecorderChip.size_setKey _ _ _).trans hsize) fun v =>
        (RecorderChip.program_setKey _ _ _ v).trans (hprogram v)
  unfold flushReleases
  dsimp only
  by_cases hmute : e.toMute = 0
  · rw [if_pos hmute]
    exact hkeyed e.chip rfl fun _ => rfl
  · rw [if_neg hmute]
    exact hkeyed _ Array.size_mapIdx hmuted

theorem retains_serviceVoices (e : Engine RecorderChip) : Retains e e.serviceVoices := by
  have hexpired : Retains e e.freeExpired :=
    retains_freeWhere (fun e' v => (e'.voice v).expired e.clock.ms) _ e
  have hsilent : ∀ e : Engine RecorderChip, Retains e e.freeSilent := fun e =>
    retains_freeWhere (fun e' v => (e.chip.voice v).status = .off && (e'.voice v).active) _ e
  exact hexpired.trans ((retains_flushReleases _).trans (hsilent _))

theorem retains_fadeMaster (e : Engine RecorderChip) : Retains e e.fadeMaster := by
  unfold fadeMaster
  split
  · exact .refl e
  · exact retains_of_sounding rfl rfl fun _ => rfl

theorem retains_fadeCd (e : Engine RecorderChip) : Retains e e.fadeCd := by
  unfold fadeCd
  split
  · exact .refl e
  · exact retains_of_sounding rfl rfl fun _ => rfl

/-- A tick leaves the registers right. -/
theorem Mirrored.tick {e : Engine RecorderChip} (h : e.Mirrored) (hform : e.WellFormed) :
    e.tick.Mirrored := by
  have hcount : ∀ e : Engine RecorderChip, Retains e { e with ticks := e.ticks + 1 } :=
    fun e => retains_of_sounding rfl rfl fun _ => rfl
  have htime : ∀ e : Engine RecorderChip, Retains e { e with clock := e.clock.advance } :=
    fun e => retains_of_sounding (by simp only [sounding]) rfl fun _ => rfl
  have hcount' : ∀ e : Engine RecorderChip, Tuned e { e with ticks := e.ticks + 1 } :=
    fun e => tuned_of_pools rfl (.refl _)
  have htime' : ∀ e : Engine RecorderChip, Tuned e { e with clock := e.clock.advance } :=
    fun e => tuned_of_pools (by simp only [pools]) (.refl _)
  have hready := (((hcount e).trans (retains_fadeMaster _)).trans (retains_fadeCd _)).trans
    (htime _) |>.mirrored h
  have hform' := hform.moves ((hcount' e).trans ((tuned_fadeMaster _).trans
    ((tuned_fadeCd _).trans (htime' _)))).moves
  rw [tick_eq]
  refine (retains_serviceVoices _).mirrored ?_
  unfold beforeUpkeep
  dsimp only
  split
  · exact hready
  · exact hready.runTracks hform'

/-! ## Other calls -/

theorem retains_forTracksWhere (e : Engine RecorderChip) (q : Slot → Bool)
    {f : Engine RecorderChip → Nat → Engine RecorderChip} (hf : ∀ e i, Retains e (f e i)) :
    Retains e (e.forTracksWhere q f) := by
  refine foldl_relates .refl (fun _ _ _ => .trans) (fun e s => ?_) _ e
  split
  · exact retains_forTracksOf e s hf
  · exact .refl e

theorem retains_pause (e : Engine RecorderChip) (sequence : Nat) (mute : Bool) :
    Retains e (e.pause sequence mute) := by
  refine retains_forTracksWhere e _ fun e i => ?_
  dsimp only
  split
  · exact (retains_pauseTrack e i).trans (retains_muteTrack _ i)
  · exact retains_pauseTrack e i

theorem retains_pauseAll (e : Engine RecorderChip) (mute : Bool) (saved : List SavedNote) :
    Retains e (e.pauseAll mute saved).2 := by
  refine foldl_relates (r := fun p q => Retains p.2 q.2) (fun p => .refl p.2)
    (fun _ _ _ => .trans) (fun p s => ?_) _ (saved, e)
  obtain ⟨saved, e⟩ := p
  dsimp only
  split
  · refine foldl_relates (r := fun p q => Retains p.2 q.2) (fun p => .refl p.2)
      (fun _ _ _ => .trans) (fun p i => ?_) _ (saved, e)
    split
    · exact (retains_muteTrack p.2 i).trans (retains_pauseTrack _ i)
    · exact retains_pauseTrack p.2 i
  · exact .refl e

/-- A track that starts was in no sequence, so no voice hears it. -/
theorem Mirrored.startTrack {e : Engine RecorderChip} (h : e.Mirrored) (hvoices : e.Accounted)
    {i : Nat} (hi : (e.track i).isActive = false) (slot sequence : Nat) (options : StartOptions)
    (position : Nat) : (e.startTrack slot sequence options i position).Mirrored := by
  have howner : ∀ v, (e.voice v).active = true → (e.voice v).track ≠ i := by
    rintro v hv rfl
    have hactive := (hvoices.owner v hv).1
    rw [hi] at hactive
    cases hactive
  unfold Engine.startTrack
  split
  · exact h
  · next stream _ =>
    obtain ⟨delta, pc⟩ := (stream.event? 0).getD (0, 0)
    have hstart := retains_modifyTrack e i (f := fun t =>
      { t.start stream.header options.attrs with
        flags := { (t.start stream.header options.attrs).flags with
          handled := options.handled, stopped := options.handled }
        slot, sequence, position, delta, pc }) (.inr howner)
    refine Retains.mirrored (hstart.trans ?_) h
    exact retains_of_sounding rfl rfl fun _ => rfl

theorem Mirrored.startSequence {e : Engine RecorderChip} (h : e.Mirrored)
    (hvoices : e.Accounted) (sequence : Nat) (options : StartOptions) :
    (e.startSequence sequence options).2.Mirrored := by
  have hboth := @startSequence_keeps _ (fun e => e.Accounted ∧ e.Mirrored)
    (fun e s f he => ⟨⟨he.1.owner, he.1.count⟩, (retains_modifySlot e s f).mirrored he.2⟩)
    (fun e slotsActive he => ⟨⟨he.1.owner, he.1.count⟩,
      (@retains_of_sounding e { e with slotsActive } rfl rfl fun _ => rfl).mirrored he.2⟩)
    options
    (fun _ slot sequence _ position hi he =>
      ⟨he.1.startTrack hi slot sequence options position,
        he.2.startTrack he.1 hi slot sequence options position⟩)
    sequence e ⟨hvoices, h⟩
  exact hboth.2

/-- New volume and pan that are set together reach the voices with one change of levels. -/
theorem Mirrored.updateLevels {e : Engine RecorderChip} (h : e.Mirrored)
    (hvoices : e.Accounted) (i : Nat) (attrs : PlayAttrs) :
    let panned := if attrs.mask.pan then e.modifyTrack i fun t => { t with pan := attrs.pan } else e
    (if attrs.mask.volume then panned.driverCommand i (.volumeMod attrs.volume)
      else if attrs.mask.pan then panned.driverCommand i (.panMod attrs.pan)
      else panned).Mirrored := by
  intro panned
  have htuned : Tuned e panned := by
    unfold panned
    split
    · exact tuned_modifyTrack e i rfl
    · exact .refl e
  have hpanned : panned.Accounted := hvoices.deed (.tuned htuned)
  cases hdriver : (e.track i).driver with
  | silent =>
    have hright : panned.Mirrored := by
      unfold panned
      split
      · exact (retains_modifyTrack e i (.inr (hvoices.owner_ne hdriver))).mirrored h
      · exact h
    split
    · exact hright.driverCommand hpanned i _
    · split
      · exact hright.driverCommand hpanned i _
      · exact hright
  | voices =>
    have hplays : ∀ c, panned.driverCommand i c = panned.voiceCommand i c := by
      intro c
      rw [Engine.driverCommand, htuned.driver, hdriver]
    simp only [hplays]
    unfold panned
    by_cases hpan : attrs.mask.pan = true
    · simp only [hpan, if_true]
      split
      · show ((e.modifyTrack i _).setTrackVolume i _).Mirrored
        rw [setTrackVolume, modifyTrack_modifyTrack]
        exact h.pushLevels hvoices i (fun _ => rfl) fun _ => rfl
      · show ((e.modifyTrack i _).setTrackPan i _).Mirrored
        have hagain : ∀ pan : UInt8,
            (e.modifyTrack i fun t => { t with pan := attrs.pan }).setTrackPan i pan =
              e.setTrackPan i pan := by
          intro pan
          unfold Engine.setTrackPan
          rw [modifyTrack_modifyTrack]
        rw [hagain]
        exact h.setTrackPan hvoices i _
    · simp only [hpan, Bool.false_eq_true, if_false]
      split
      · exact h.pushLevels hvoices i (fun _ => rfl) fun _ => rfl
      · exact h

theorem tune_override (t : Track) (attrs : PlayAttrs) : (t.override attrs).tune = t.tune := by
  unfold Track.override
  dsimp only
  split <;> split <;> rfl

/-- New settings of a track reach its voices. -/
theorem Mirrored.updateTrack {e : Engine RecorderChip} (h : e.Mirrored) (hvoices : e.Accounted)
    (i : Nat) (attrs : PlayAttrs) : (e.updateTrack i attrs).Mirrored := by
  have hlevelled := h.updateLevels hvoices i attrs
  unfold Engine.updateTrack
  extract_lets mask panned levelled bent
  have hlevelled' : levelled.Mirrored := hlevelled
  have htuned : Tuned e levelled := by
    have hpanned : Tuned e panned := by
      unfold panned
      split
      · exact tuned_modifyTrack e i rfl
      · exact .refl e
    unfold levelled
    split
    · exact hpanned.trans (tuned_driverCommand _ i _ nofun nofun)
    · split
      · exact hpanned.trans (tuned_driverCommand _ i _ nofun nofun)
      · exact hpanned
  have hbent : bent.Mirrored := by
    unfold bent
    split
    · exact hlevelled'.driverCommand (hvoices.deed (.tuned htuned)) i _
    · exact hlevelled'
  exact (retains_modifyTrack bent i (.inl (tune_override _ attrs))).mirrored hbent

theorem Mirrored.updateTagged {e : Engine RecorderChip} (h : e.Mirrored) (hvoices : e.Accounted)
    (tag : UInt32) (attrs : PlayAttrs) : (e.updateTagged tag attrs).Mirrored := by
  unfold Engine.updateTagged
  split
  · exact h
  · have hupdate : ∀ (e : Engine RecorderChip) (i : Nat), e.Accounted ∧ e.Mirrored →
        (e.updateTrack i attrs).Accounted ∧ (e.updateTrack i attrs).Mirrored :=
      fun e i he => ⟨he.1.deed (.tuned (tuned_updateTrack e i attrs)),
        he.2.updateTrack he.1 i attrs⟩
    have hboth := foldl_keeps
      (f := fun e s => if (e.slot s).active && (e.slot s).tag == tag then
        e.forTracksOf s (fun e i => e.updateTrack i attrs) else e)
      (fun _ (e : Engine RecorderChip) => e.Accounted ∧ e.Mirrored)
      (fun s _ e he => by
        split
        · exact foldl_keeps (fun _ e => e.Accounted ∧ e.Mirrored)
            (fun i _ e he => hupdate e i he) _ e he
        · exact he)
      e.slotIds e ⟨hvoices, h⟩
    exact hboth.2

end Engine

/-! ## Runs -/

open Engine

theorem mirrored_perform (s : Session RecorderChip) {call : Call RecorderChip}
    (hcall : call.Conducts) (hform : s.engine.WellFormed) (h : s.engine.Mirrored) :
    (s.perform call).engine.Mirrored := by
  have hend : ∀ q, (s.engine.forTracksWhere q turnOff).Mirrored := fun q =>
    (retains_forTracksWhere s.engine q retains_turnOff).mirrored h
  cases call with
  | tick =>
    rw [Session.engine_tick]
    exact h.tick hform
  | start sequence options => exact h.startSequence hform.voices sequence options
  | stop sequence => exact hend (·.sequence == sequence)
  | stopAll => exact hend fun _ => true
  | stopTagged tag => exact hend (·.tag == tag)
  | pause sequence mute => exact (retains_pause s.engine sequence mute).mirrored h
  | pauseAll mute saved => exact (retains_pauseAll s.engine mute saved).mirrored h
  | updateTagged tag attrs => exact h.updateTagged hform.voices tag attrs
  | _ => exact hcall.elim

theorem mirrored_make {module : SoundModule} {chip : RecorderChip} {e : Engine RecorderChip}
    (hmake : Engine.make module chip = .ok e) (hchip : chip.voices.size = hardwareVoices) :
    e.Mirrored := by
  have hnone : ∀ v, (e.voice v).active = false := fun v => by rw [voice_make hmake]
  unfold Engine.make at hmake
  split at hmake
  · cases hmake
  · cases hmake
    refine ⟨hchip, ?_, fun v _ hv => ?_⟩
    · show (Array.replicate (min _ hardwareVoices) ({} : Voice)).size ≤ hardwareVoices
      rw [Array.size_replicate]
      exact Nat.min_le_right _ _
    · rw [hnone v] at hv
      cases hv

/-- From a new engine on, the registers of every voice in use are what its note would
program, throughout every run of ticks, starts, stops, pauses and changes of settings. -/
theorem mirrored_throughout {module : SoundModule} {chip : RecorderChip}
    {e : Engine RecorderChip} (hmake : Engine.make module chip = .ok e)
    (hchip : chip.voices.size = hardwareVoices) {calls : List (Call RecorderChip)}
    (hcalls : Session.Allows (fun _ call => call.Conducts) { engine := e } calls) :
    Session.Throughout (fun s => s.engine.WellFormed ∧ s.engine.Mirrored) { engine := e } calls :=
  hcalls.throughout _
    (fun s _ h hcall => ⟨wellFormed_perform s hcall h.1, mirrored_perform s hcall h.1 h.2⟩)
    ⟨wellFormed_make hmake, mirrored_make hmake hchip⟩

/-- Where links and counts are right and the registers of every voice in use are what its
note would program now, they are so after a tick, and after every start, stop, pause and
change of settings. -/
theorem mirrored_calls {e : Engine RecorderChip} (hform : e.WellFormed) (h : e.Mirrored) :
    e.tick.Mirrored ∧
      (∀ sequence options, (e.startSequence sequence options).2.Mirrored) ∧
      (∀ sequence, (e.stop sequence).Mirrored) ∧ e.stopAll.Mirrored ∧
      (∀ tag, (e.stopTagged tag).Mirrored) ∧
      (∀ sequence mute, (e.pause sequence mute).Mirrored) ∧
      (∀ mute saved, (e.pauseAll mute saved).2.Mirrored) ∧
      ∀ tag attrs, (e.updateTagged tag attrs).Mirrored := by
  have hperform : ∀ call : Call RecorderChip, call.Conducts →
      (Session.perform { engine := e } call).engine.Mirrored :=
    fun _ hcall => mirrored_perform { engine := e } hcall hform h
  refine ⟨?_, fun sequence options => hperform (.start sequence options) trivial,
    fun sequence => hperform (.stop sequence) trivial, hperform .stopAll trivial,
    fun tag => hperform (.stopTagged tag) trivial,
    fun sequence mute => hperform (.pause sequence mute) trivial,
    fun mute saved => hperform (.pauseAll mute saved) trivial,
    fun tag attrs => hperform (.updateTagged tag attrs) trivial⟩
  rw [← Session.engine_tick { engine := e }]
  exact hperform .tick trivial

/-- A track strikes a note, bends it and makes it quieter within a tick. -/
theorem mirrored_calls_bend : ∃ e : Engine RecorderChip, e.WellFormed ∧ e.Mirrored ∧
    (e.voice 0).active = true ∧ (e.tick.voice 0).active = true ∧
    (e.track 0).volume ≠ (e.tick.track 0).volume ∧ e.tick.Mirrored := by
  obtain ⟨e, hmake, hsounds⟩ : ∃ e,
      Engine.make (solo [(0, .noteOn 60 100), (2, .pitchMod 300), (0, .volumeMod 90),
          (1000, .trackEnd)]) ({ instantRelease := false } : RecorderChip) = .ok e ∧
        let started := (Session.run { engine := e } [.start 0 {}, .tick]).engine
        (started.voice 0).active = true ∧ (started.tick.voice 0).active = true ∧
          (started.track 0).volume ≠ (started.tick.track 0).volume :=
    Engine.exists_make (by decide +kernel)
  obtain ⟨hbefore, hafter, hquieter⟩ := hsounds
  have hrun := (@mirrored_throughout _ _ _ hmake rfl [.start 0 {}, .tick]
    ⟨trivial, trivial, trivial⟩).last
  exact ⟨_, hrun.1, hrun.2, hbefore, hafter, hquieter, (mirrored_calls hrun.1 hrun.2).1⟩

end SoundSequencer
