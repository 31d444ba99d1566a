/-
SoundSequencer.Proofs.MasterVolume — which voices hear a new master volume of music.

* `Engine.AtLevel` says of a voice that its registers hold the levels of its note, as the
  master volumes are now. `Engine.Levelled` says so of all voices in use.
* `Engine.UnderMusic` says of a voice that its owner's class follows the master volume of
  music: all classes do but that of effects.
* A change of that master writes the levels of the voices of music tracks again and no
  others: `setVolumeOf_music_eq`, `levels_setVolumeOf`. The drum classes follow the master
  all the same, so `atLevel_setVolumeOf_iff` has a condition on their voices.
-/
import SoundSequencer.Proofs.Overrides
import SoundSequencer.Proofs.Registers

namespace SoundSequencer

/-- The levels that a voice of the chip is set to. -/
def RecorderChip.levels (chip : RecorderChip) (v : Nat) : Int16 × Int16 :=
  ((chip.voice v).registers.left, (chip.voice v).registers.right)

namespace Engine

section Levels

variable {σ : Type}

/-- The levels that the note of voice `v` is to have, played as `patch` says. -/
def voiceLevels (e : Engine σ) (v : Nat) (patch : PatchVoice) : Int16 × Int16 :=
  e.levels (e.voice v).track patch (e.voice v).velocity

/-- The engine with another master volume of music, of which no voice has heard yet. -/
def withMusic (e : Engine σ) (volume : UInt8) : Engine σ := { e with musicVolume := volume }

/-- Voice `v` is in use, and the class of its owner follows the master volume of music. -/
def UnderMusic (e : Engine σ) (v : Nat) : Prop :=
  (e.voice v).active = true ∧ (e.track (e.voice v).track).soundClass.isEffect = false

end Levels

/-- The registers of voice `v` hold the levels of its note. -/
def AtLevel (e : Engine RecorderChip) (v : Nat) : Prop :=
  ∀ patch, e.patchVoice? v = some patch → e.chip.levels v = e.voiceLevels v patch

instance (e : Engine RecorderChip) (v : Nat) : Decidable (e.AtLevel v) :=
  inferInstanceAs (Decidable (∀ patch ∈ e.patchVoice? v, _))

/-- The chip has the voices of the hardware and the pool no more, and the registers of every
voice in use hold the levels of its note. -/
structure Levelled (e : Engine RecorderChip) : Prop where
  size : e.chip.voices.size = hardwareVoices
  limit : e.voices.limit ≤ hardwareVoices
  voice : ∀ v, (e.voice v).active = true → e.AtLevel v

/-! ## One track -/

section OneTrack

variable {e : Engine RecorderChip} {i : Nat}

/-- Levels that are sent again change the registers of the chip alone. -/
theorem pushLevels_eq (e : Engine RecorderChip) (i : Nat) :
    e.pushLevels i = { e with chip := (e.pushLevels i).chip } := by
  unfold pushLevels writeOwned
  split <;> rfl

/-- The registers after a track has sent the levels of its voices. -/
theorem registers_pushLevels (hlimit : e.voices.limit ≤ hardwareVoices) :
    (e.pushLevels i).chip.voices.size = e.chip.voices.size ∧
      ∀ v, v < e.chip.voices.size → ∀ patch, e.patchVoice? v = some patch →
        ((e.pushLevels i).chip.voice v).registers =
          if (e.track i).voicesActive ≠ 0 ∧ v ∈ e.voices.ownedBy i then
            (e.chip.voice v).registers.write .levels
              { left := (e.levels i patch (e.voice v).velocity).1
                right := (e.levels i patch (e.voice v).velocity).2 }
          else (e.chip.voice v).registers := by
  unfold pushLevels writeOwned
  by_cases hnone : (e.track i).voicesActive = 0
  · simp [hnone]
  · rw [if_neg hnone]
    obtain ⟨hsize, hrest, hlisted⟩ := registers_foldl_write e .levels
      (fun voice patch =>
        { left := (e.levels i patch voice.velocity).1
          right := (e.levels i patch voice.velocity).2 }) (e.voices.ownedBy i) e.chip
      (fun w hw => by
        have hlt := (VoicePool.mem_select.mp hw).1
        simp only [hardwareVoices] at hlimit
        omega)
      (List.nodup_range.filter _)
    refine ⟨hsize, fun v hv patch hpatch => ?_⟩
    by_cases hmem : v ∈ e.voices.ownedBy i
    · rw [if_pos ⟨hnone, hmem⟩]
      exact hlisted v patch hmem hv hpatch
    · rw [if_neg fun h => hmem h.2]
      exact hrest v hmem

/-- A track sends the levels of the voices that it owns, and no others. -/
theorem levels_pushLevels (hvoices : e.Accounted) (hsize : e.chip.voices.size = hardwareVoices)
    (hlimit : e.voices.limit ≤ hardwareVoices) {v : Nat} {patch : PatchVoice}
    (hv : (e.voice v).active = true) (hpatch : e.patchVoice? v = some patch) :
    (e.pushLevels i).chip.levels v =
      if (e.voice v).track = i then e.voiceLevels v patch else e.chip.levels v := by
  have hin : v < e.voices.limit := lt_limit_of_active hv
  -- a track that owns the voice counts it
  have howned : ((e.track i).voicesActive ≠ 0 ∧ v ∈ e.voices.ownedBy i) ↔
      (e.voice v).track = i := by
    have hv' : (e.voices.voice v).active = true := hv
    simp only [VoicePool.ownedBy, VoicePool.mem_select, Voice.ownedBy, Bool.and_eq_true, beq_iff_eq]
    exact ⟨fun h => h.2.2.2, fun hown =>
      ⟨hown ▸ (hvoices.sounds hv).counts, hin, hv', hown⟩⟩
  have hregisters := (registers_pushLevels (i := i) hlimit).2 v (by omega) patch hpatch
  rw [RecorderChip.levels, hregisters]
  by_cases hown : (e.voice v).track = i
  · rw [if_pos (howned.mpr hown), if_pos hown, voiceLevels, hown]
    rfl
  · rw [if_neg fun h => hown (howned.mp h), if_neg hown]
    rfl

end OneTrack

/-! ## All tracks -/

/-- Whether track `i` hears of a new master volume of music. -/
def hearsMusic {σ : Type} (e : Engine σ) (i : Nat) : Bool :=
  (e.track i).isActive && (e.track i).soundClass == .music && (e.track i).driver == .voices

/-- Each track that hears of it sends the levels of its voices again. -/
theorem setVolumeOf_music_eq (e : Engine RecorderChip) (volume : UInt8) :
    e.setVolumeOf .music volume =
      e.trackIds.foldl (fun e i => if e.hearsMusic i then e.pushLevels i else e)
        (e.withMusic volume) := by
  have hturn : ∀ (e : Engine RecorderChip) (i : Nat),
      (if (e.track i).isActive && (e.track i).soundClass == .music then
        e.driverCommand i (.volumeMod (e.track i).volume) else e) =
        if e.hearsMusic i then e.pushLevels i else e := by
    intro e i
    have hsame : (e.modifyTrack i fun t => { t with volume := (e.track i).volume }) = e :=
      modifyTrack_of_eq rfl
    cases hdriver : (e.track i).driver with
    | silent =>
      have hidle : e.driverCommand i (.volumeMod (e.track i).volume) = e := by
        rw [driverCommand, hdriver]
        exact hsame
      simp [hearsMusic, hdriver, hidle]
    | voices =>
      have hpush : e.driverCommand i (.volumeMod (e.track i).volume) = e.pushLevels i := by
        rw [driverCommand, hdriver]
        exact congrArg (·.pushLevels i) hsame
      simp [hearsMusic, hdriver, hpush]
  unfold setVolumeOf
  dsimp only
  simp only [hturn]
  rfl

/-- What is left of the chip once some tracks have sent their levels again. -/
theorem levels_foldl_pushLevels {e : Engine RecorderChip} (hvoices : e.Accounted)
    (hlimit : e.voices.limit ≤ hardwareVoices) (l : List Nat) (chip : RecorderChip)
    (hsize : chip.voices.size = hardwareVoices) :
    ∃ chip' : RecorderChip,
      l.foldl (fun e i => if e.hearsMusic i then e.pushLevels i else e) { e with chip } =
        { e with chip := chip' } ∧
      ∀ v patch, (e.voice v).active = true → e.patchVoice? v = some patch →
        chip'.levels v =
          if (e.voice v).track ∈ l ∧ e.hearsMusic (e.voice v).track = true then
            e.voiceLevels v patch
          else chip.levels v := by
  induction l generalizing chip with
  | nil => exact ⟨chip, rfl, fun _ _ _ _ => by simp⟩
  | cons i l ih =>
    rw [List.foldl_cons]
    have hears : ({ e with chip } : Engine RecorderChip).hearsMusic i = e.hearsMusic i := rfl
    rw [hears]
    by_cases hi : e.hearsMusic i = true
    case neg =>
      rw [if_neg hi]
      obtain ⟨chip', heq, hlevels⟩ := ih chip hsize
      refine ⟨chip', heq, fun v patch hv hpatch => ?_⟩
      have hlisted : ((e.voice v).track ∈ i :: l ∧ e.hearsMusic (e.voice v).track = true) ↔
          ((e.voice v).track ∈ l ∧ e.hearsMusic (e.voice v).track = true) := by
        rw [List.mem_cons]
        grind
      simp only [hlisted, hlevels v patch hv hpatch]
    case pos =>
      rw [if_pos hi, pushLevels_eq]
      have hkept := (registers_pushLevels (e := { e with chip }) (i := i) hlimit).1
      obtain ⟨chip', heq, hlevels⟩ := ih _ (hkept.trans hsize)
      refine ⟨chip', heq, fun v patch hv hpatch => (hlevels v patch hv hpatch).trans ?_⟩
      have hsent := levels_pushLevels (e := { e with chip }) (i := i)
        ⟨hvoices.owner, hvoices.count⟩ hsize hlimit hv hpatch
      by_cases hown : (e.voice v).track = i
      · -- the track sends for the voice now, and again if it stands in the list once more
        have hnow := hsent.trans (if_pos hown)
        simp only [hown, List.mem_cons, true_or, hi, and_self, if_true, hnow]
        split <;> rfl
      · have hnot := hsent.trans (if_neg hown)
        simp [hown, hnot]

/-- A new master volume of music changes that volume and levels of voices, and of those just
the ones of music tracks. -/
theorem levels_setVolumeOf {e : Engine RecorderChip} (hform : e.WellFormed) (h : e.Levelled)
    (volume : UInt8) :
    ∃ chip : RecorderChip, e.setVolumeOf .music volume = { e.withMusic volume with chip } ∧
      ∀ v patch, (e.voice v).active = true → e.patchVoice? v = some patch →
        chip.levels v =
          if (e.track (e.voice v).track).soundClass = .music then
            (e.withMusic volume).voiceLevels v patch
          else e.voiceLevels v patch := by
  obtain ⟨chip, heq, hlevels⟩ := levels_foldl_pushLevels (e := e.withMusic volume)
    ⟨hform.voices.owner, hform.voices.count⟩ h.limit e.trackIds e.chip h.size
  refine ⟨chip, (setVolumeOf_music_eq e volume).trans heq, fun v patch hv hpatch =>
    (hlevels v patch hv hpatch).trans ?_⟩
  obtain ⟨hactive, hdriver⟩ := hform.voices.owner v hv
  have hmem : (e.voice v).track ∈ e.trackIds := by
    simpa [trackIds] using lt_size_of_isActive hactive
  -- the owner is active and plays notes, so its class alone decides
  have hears : (e.withMusic volume).hearsMusic (e.voice v).track =
      ((e.track (e.voice v).track).soundClass == .music) := by
    have hread : ∀ i, (e.withMusic volume).track i = e.track i := fun _ => rfl
    simp [hearsMusic, hread, hactive, hdriver]
  have hvoice : (e.withMusic volume).voice v = e.voice v := rfl
  simp only [hvoice, hmem, hears, true_and, beq_iff_eq]
  split
  · rfl
  · exact h.voice v hv patch hpatch

/-- Where the registers of every voice in use hold the levels of its note, a new master volume of
music reaches all the voices under it just if it changes nothing for those of drum tracks: their
levels are not sent again. -/
theorem atLevel_setVolumeOf_iff {e : Engine RecorderChip} (hform : e.WellFormed) (h : e.Levelled)
    (volume : UInt8) :
    (∀ v, (e.setVolumeOf .music volume).UnderMusic v →
        (e.setVolumeOf .music volume).AtLevel v) ↔
      ∀ v patch, e.UnderMusic v → e.patchVoice? v = some patch →
        (e.track (e.voice v).track).soundClass ≠ .music →
          (e.withMusic volume).voiceLevels v patch = e.voiceLevels v patch := by
  obtain ⟨chip, heq, hlevels⟩ := levels_setVolumeOf hform h volume
  rw [heq]
  constructor
  · intro hall v patch hunder hpatch hclass
    have hat := hall v hunder patch hpatch
    exact hat.symm.trans ((hlevels v patch hunder.1 hpatch).trans (if_neg hclass))
  · intro hsame v hunder patch hpatch
    refine (hlevels v patch hunder.1 hpatch).trans ?_
    split
    case isTrue => rfl
    case isFalse hclass => exact (hsame v patch hunder hpatch hclass).symm

end Engine

open Engine

/-- A note of music hears of the new volume. -/
theorem atLevel_setVolumeOf_music : ∃ e : Engine RecorderChip,
    Engine.make (solo [(0, .noteOn 60 100), (1000, .trackEnd)]) {} = .ok e ∧
      e.underWay.UnderMusic 0 ∧ e.underWay.Levelled ∧
      (e.underWay.setVolumeOf .music 64).chip.levels 0 ≠ e.underWay.chip.levels 0 ∧
      ∀ v, (e.underWay.setVolumeOf .music 64).UnderMusic v →
        (e.underWay.setVolumeOf .music 64).AtLevel v := by
  obtain ⟨e, hmake, hunder, hchanges, hsize, hlimit, hlevels, hclass⟩ : ∃ e : Engine RecorderChip,
      Engine.make (solo [(0, .noteOn 60 100), (1000, .trackEnd)]) {} = .ok e ∧
        ((e.underWay.voice 0).active = true ∧
          (e.underWay.track (e.underWay.voice 0).track).soundClass.isEffect = false) ∧
        (e.underWay.setVolumeOf .music 64).chip.levels 0 ≠ e.underWay.chip.levels 0 ∧
        e.underWay.chip.voices.size = hardwareVoices ∧
        e.underWay.voices.limit ≤ hardwareVoices ∧
        (∀ v < e.underWay.voices.limit, (e.underWay.voice v).active = true →
          e.underWay.AtLevel v) ∧
        ∀ v < e.underWay.voices.limit,
          (e.underWay.track (e.underWay.voice v).track).soundClass = .music :=
    exists_make (by decide +kernel)
  have hform : e.underWay.WellFormed := (@wellFormed_throughout _ _ _ _ _ hmake
    [.start 0 {}, .tick] ⟨trivial, trivial, trivial⟩).last
  have hlevelled : e.underWay.Levelled :=
    ⟨hsize, hlimit, fun v hv => hlevels v (lt_limit_of_active hv) hv⟩
  exact ⟨e, hmake, hunder, hlevelled, hchanges,
    (atLevel_setVolumeOf_iff hform hlevelled 64).mpr fun v _ hv _ hdrums =>
      absurd (hclass v (lt_limit_of_active hv.1)) hdrums⟩

/-- A drum does not, although its levels follow that volume. -/
theorem not_atLevel_drums : ∃ e : Engine RecorderChip,
    Engine.make (drumSolo [60] [(0, .noteOn 0 100), (1000, .trackEnd)]) {} = .ok e ∧
      e.underWay.WellFormed ∧ e.underWay.Levelled ∧
      (e.underWay.setVolumeOf .music 64).UnderMusic 0 ∧
      ¬ (e.underWay.setVolumeOf .music 64).AtLevel 0 := by
  obtain ⟨e, hmake, hsize, hlimit, hlevels, hunder, hnot⟩ : ∃ e : Engine RecorderChip,
      Engine.make (drumSolo [60] [(0, .noteOn 0 100), (1000, .trackEnd)]) {} = .ok e ∧
        e.underWay.chip.voices.size = hardwareVoices ∧
        e.underWay.voices.limit ≤ hardwareVoices ∧
        (∀ v < e.underWay.voices.limit, (e.underWay.voice v).active = true →
          e.underWay.AtLevel v) ∧
        (((e.underWay.setVolumeOf .music 64).voice 0).active = true ∧
          ((e.underWay.setVolumeOf .music 64).track
            ((e.underWay.setVolumeOf .music 64).voice 0).track).soundClass.isEffect = false) ∧
        ¬ (e.underWay.setVolumeOf .music 64).AtLevel 0 :=
    exists_make (by decide +kernel)
  have hform : e.underWay.WellFormed := (@wellFormed_throughout _ _ _ _ _ hmake
    [.start 0 {}, .tick] ⟨trivial, trivial, trivial⟩).last
  exact ⟨e, hmake, hform, ⟨hsize, hlimit, fun v hv => hlevels v (lt_limit_of_active hv) hv⟩,
    hunder, hnot⟩

end SoundSequencer
