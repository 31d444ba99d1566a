/-
SoundSequencer.Proofs.NoteEffects — what a note that is asked for does to the whole
engine.

* `Engine.Poised` is a state in which all books are right, those of the pool of voices
  included.
* A voice that is freed may end its owner (`Engine.EndsOwner`) and take it out of the
  pool (`Engine.FreesOwner`); `freeVoice_of_ends` and `freeVoice_of_not_ends` say all
  that happens then.
* `startVoice_eq` says all that the start of a note does, and `startVoice_freeVoice` that it
  is the same on a voice that was freed for it.
* `Engine.TakesVoice` puts the two together, and `playNote_all_or_nothing` says that a
  note does either all of it or nothing.
-/
import SoundSequencer.Proofs.Firm
import SoundSequencer.Proofs.Keying
import SoundSequencer.Proofs.Silence
import SoundSequencer.Proofs.Status
import SoundSequencer.Proofs.VoiceChoice
import SoundSequencer.Proofs.WellFormed

namespace SoundSequencer

namespace VoiceSet

theorem contains_erase {s : VoiceSet} {v w : Nat} (hv : v < 32) :
    (s.erase v).contains w = (s.contains w && !decide (v = w)) := by
  rw [← contains_single hv]
  by_cases hw : w < 32
  · simp [erase, contains, hw]
  · have hout : ∀ t : VoiceSet, t.contains w = false :=
      fun t => BitVec.getLsbD_of_ge t w (Nat.le_of_not_lt hw)
    rw [hout, hout, Bool.false_and]

/-- A set that takes up a voice or gives it away is the same in every other voice. -/
theorem contains_insert_or_erase {s : VoiceSet} {v w : Nat} (hv : v < 32) (wanted : Bool) :
    (if wanted then s.insert v else s.erase v).contains w =
      if w = v then wanted else s.contains w := by
  by_cases hw : w = v
  · subst hw
    cases wanted with
    | true => simp [contains_insert hv]
    | false => simp [contains_erase hv]
  · cases wanted with
    | true => simp [contains_insert hv, hw, Ne.symm hw]
    | false => simp [contains_erase hv, hw, Ne.symm hw]

end VoiceSet

theorem Voice.ownedBy_iff {v : Voice} {i : Nat} :
    v.ownedBy i = true ↔ v.active = true ∧ v.track = i := by
  simp [ownedBy]

/-- A track that gets a voice back is as it was. -/
theorem Track.withVoice_withoutVoice {t : Track} (h : t.voicesActive ≠ 0) :
    t.withoutVoice.withVoice = t := by
  simp only [withVoice, withoutVoice, Nat.sub_add_cancel (Nat.pos_of_ne_zero h)]

namespace Engine

variable {σ : Type}

/-! ## The books -/

/-- Tracks and slots agree, voices are owned and those in use are counted, and every track
that plays notes counts its own voices and has no more than it may. -/
structure Poised (e : Engine σ) : Prop extends e.WellFormed where
  manned : e.Manned
  count : ∀ i, (e.track i).isActive = true → (e.track i).driver = .voices →
    (e.track i).voicesActive = (e.voices.ownedBy i).length
  atMost : ∀ i, (e.track i).isActive = true → (e.track i).driver = .voices →
    (e.track i).voicesActive ≤ (e.track i).maxVoices

/-! ## A voice that is freed -/

/-- Voice `v` is the last of a track that is turned off. -/
def EndsOwner (e : Engine σ) (v : Nat) : Prop :=
  (e.voice v).active = true ∧ (e.track (e.voice v).track).flags.off = true ∧
    (e.track (e.voice v).track).voicesActive = 1

/-- Voice `v` is the last of a track that is turned off and that no handle holds. -/
def FreesOwner (e : Engine σ) (v : Nat) : Prop :=
  e.EndsOwner v ∧ (e.track (e.voice v).track).isHandled = false

instance (e : Engine σ) (v : Nat) : Decidable (e.EndsOwner v) :=
  inferInstanceAs (Decidable (_ ∧ _))

instance (e : Engine σ) (v : Nat) : Decidable (e.FreesOwner v) :=
  inferInstanceAs (Decidable (_ ∧ _))

theorem Accounted.track_dropVoice_owner {e : Engine σ} (h : e.Accounted) {v : Nat}
    (hv : (e.voice v).active = true) :
    (e.dropVoice v).track (e.voice v).track = (e.track (e.voice v).track).withoutVoice := by
  rw [track_dropVoice, if_pos ⟨rfl, lt_size_of_isActive (h.owner v hv).1⟩]

/-- The owner of a voice counts it, so that none is left to count after its last. -/
theorem Accounted.last_iff {e : Engine σ} (h : e.Accounted) {v : Nat}
    (hv : (e.voice v).active = true) :
    ((e.track (e.voice v).track).withoutVoice.voicesActive = 0 ∧
      (e.track (e.voice v).track).withoutVoice.flags.off = true) ↔ e.EndsOwner v := by
  have hcounts := (h.sounds hv).counts
  constructor
  · rintro ⟨hnone, hoff⟩
    refine ⟨hv, hoff, ?_⟩
    simp only [Track.withoutVoice] at hnone
    omega
  · rintro ⟨-, hoff, hone⟩
    exact ⟨by simp only [Track.withoutVoice, hone], hoff⟩

theorem Accounted.freeVoice_of_not_ends {e : Engine σ} (h : e.Accounted) {v : Nat}
    (hv : (e.voice v).active = true) (hends : ¬ e.EndsOwner v) :
    e.freeVoice v = e.dropVoice v := by
  rw [freeVoice_eq, if_pos hv, h.track_dropVoice_owner hv]
  exact if_neg (mt (h.last_iff hv).mp hends)

/-- Only the owner of a voice is touched when it is freed. -/
theorem Accounted.track_freeVoice {e : Engine σ} (h : e.Accounted) (v i : Nat) :
    (e.freeVoice v).track i =
      if (e.voice v).ownedBy i then
        if e.EndsOwner v then (e.track i).withoutVoice.retired else (e.track i).withoutVoice
      else e.track i := by
  rw [Engine.track_freeVoice]
  cases howned : (e.voice v).ownedBy i with
  | true =>
    obtain ⟨hv, rfl⟩ := Voice.ownedBy_iff.mp howned
    rw [if_pos ⟨hv, rfl, lt_size_of_isActive (h.owner v hv).1⟩, if_pos rfl]
    simp only [Track.voiceFreed, h.last_iff hv]
  | false =>
    have hnot : ¬ ((e.voice v).active = true ∧ (e.voice v).track = i) := by
      rw [← Voice.ownedBy_iff, howned]
      exact Bool.false_ne_true
    rw [if_neg fun hp => hnot ⟨hp.1, hp.2.1⟩, if_neg Bool.false_ne_true]

/-- A track that is turned off is paused already, so that leaving the pool is all of its
end that its slot can tell. -/
theorem WellFormed.freeVoice_of_ends {e : Engine σ} (h : e.WellFormed) {v : Nat}
    (hends : e.EndsOwner v) :
    e.freeVoice v =
      (if (e.track (e.voice v).track).isHandled then e.dropVoice v
        else (e.dropVoice v).leavePool (e.voice v).track).modifyTrack (e.voice v).track
        fun t => { t with flags := { t.flags with timed := false } } := by
  have hv := hends.1
  have hdropped := h.voices.track_dropVoice_owner hv
  have hstopped : ((e.dropVoice v).track (e.voice v).track).isStopped = true := by
    rw [hdropped]
    exact h.rests _ (h.voices.owner v hv).1 hends.2.1
  have hpaused : (e.dropVoice v).pauseTrack (e.voice v).track = e.dropVoice v :=
    if_pos hstopped
  rw [freeVoice_eq, if_pos hv, hdropped, if_pos ((h.voices.last_iff hv).mpr hends)]
  unfold retireTrack
  dsimp only
  rw [hpaused, hdropped]
  rfl

/-- A track that may play loses no more than the voice. -/
theorem Accounted.track_freeVoice_of_mayPlay {e : Engine σ} (h : e.Accounted) {i : Nat}
    (hi : (e.track i).MayPlay) (v : Nat) :
    (e.freeVoice v).track i =
      if (e.voice v).ownedBy i then (e.track i).withoutVoice else e.track i := by
  rw [h.track_freeVoice]
  split
  · next howned =>
    obtain ⟨-, rfl⟩ := Voice.ownedBy_iff.mp howned
    exact if_neg fun hends => Bool.false_ne_true (hi.on.symm.trans hends.2.1)
  · rfl

/-- What a voice that is freed leaves behind but for the track that it was owned by: the
voice is idle, and an owner that leaves the pool leaves its slot. -/
structure Frees (e : Engine σ) (v : Nat) (e' : Engine σ) : Prop where
  slots : e'.slots =
    if e.FreesOwner v then
      e.slots.modify (e.track (e.voice v).track).slot (·.withoutTrack (e.voice v).track)
    else e.slots
  tracksActive : e'.tracksActive = if e.FreesOwner v then e.tracksActive - 1 else e.tracksActive
  slotsActive : e'.slotsActive =
    if e.FreesOwner v ∧ (e.slot (e.track (e.voice v).track).slot).tracksActive = 1 then
      e.slotsActive - 1
    else e.slotsActive
  rest : e' = { e with
    voices := e.voices.vacate v
    tracks := e'.tracks
    slots := e'.slots
    tracksActive := e'.tracksActive
    slotsActive := e'.slotsActive }

theorem Frees.of_stays {e e' : Engine σ} {v : Nat} (hstays : ¬ e.FreesOwner v)
    (h : e' = { e with voices := e.voices.vacate v, tracks := e'.tracks }) : e.Frees v e' := by
  rw [h]
  exact ⟨(if_neg hstays).symm, (if_neg hstays).symm, (if_neg fun hp => hstays hp.1).symm, rfl⟩

theorem WellFormed.frees {e : Engine σ} (h : e.WellFormed) (v : Nat) :
    e.Frees v (e.freeVoice v) := by
  by_cases hends : e.EndsOwner v
  · have hfree := h.freeVoice_of_ends hends
    cases hheld : (e.track (e.voice v).track).isHandled with
    | true =>
      rw [hheld, if_pos rfl] at hfree
      rw [hfree]
      exact .of_stays (fun hfrees => Bool.false_ne_true (hfrees.2.symm.trans hheld)) rfl
    | false =>
      rw [hheld, if_neg Bool.false_ne_true] at hfree
      have hfrees : e.FreesOwner v := ⟨hends, hheld⟩
      have hdropped := h.voices.track_dropVoice_owner hends.1
      obtain ⟨hhome, hentry, -⟩ := h.agree.home _ (h.voices.owner v hends.1).1
      have hsome := Slot.entries_pos hentry
      rw [← h.agree.entries _ hhome] at hsome
      have hlast : (e.slot (e.track (e.voice v).track).slot).endsNext = true ↔
          (e.slot (e.track (e.voice v).track).slot).tracksActive = 1 := by
        simp only [Slot.endsNext, hhome, Bool.true_and, decide_eq_true_iff]
        omega
      rw [hfree]
      refine ⟨?_, (if_pos hfrees).symm, ?_, rfl⟩
      · rw [if_pos hfrees]
        simp only [leavePool, hdropped]
        rfl
      · simp only [leavePool, hdropped, hfrees, true_and, ← hlast]
        rfl
  · refine .of_stays (fun hfrees => hends hfrees.1) ?_
    cases hv : (e.voice v).active with
    | true => rw [h.voices.freeVoice_of_not_ends hv hends]; rfl
    | false =>
      have hidle : ¬ (e.voices.voice v).active = true := Bool.eq_false_iff.mp hv
      rw [freeVoice_of_idle hv, VoicePool.vacate, if_neg hidle]

/-! ## A note that starts -/

/-- What a voice holds on which a note of track `i` starts. -/
def noteVoice (e : Engine σ) (i : Nat) (patchVoice : UInt16) (patch : PatchVoice)
    (note velocity : UInt8) : Voice where
  active := true
  track := i
  note := note
  velocity := velocity
  soundClass := (e.track i).soundClass
  priority := (e.track i).priority
  patchVoice := patchVoice
  sample := patch.sample
  onOff := e.clock.ms
  releaseTime := Voice.envelopeRelease patch.adsr2

/-- The registers that a note of track `i` starts with. -/
def noteRegisters (e : Engine σ) (i : Nat) (patch : PatchVoice) (note velocity : UInt8) :
    VoiceRegisters where
  left := (e.levels i patch velocity).1
  right := (e.levels i patch velocity).2
  note := Voice.voiceNote note (e.track i).pitch patch
  sampleNote := Voice.sampleNote patch
  address := (e.module.patches.sample? patch.sample).elim 0 (·.address)
  adsr1 := patch.adsr1
  adsr2 := patch.adsr2

section Starts

variable [SoundChip σ]

/-- The chip once voice `v` is where track `i` wants it, at the reverb unit or not. -/
def reverbChip (e : Engine σ) (v i : Nat) : σ :=
  if ((e.track i).reverb != 0) = e.reverbVoices.contains v then e.chip
  else SoundChip.setReverb ((e.track i).reverb != 0) (VoiceSet.single v) e.chip

theorem routeReverb_eq {e : Engine σ} {v : Nat} (hv : v < 32) :
    ∃ reverbVoices : VoiceSet,
      (∀ w, reverbVoices.contains w =
        if w = v then (e.track (e.voice v).track).reverb != 0 else e.reverbVoices.contains w) ∧
      e.routeReverb v = { e with chip := e.reverbChip v (e.voice v).track, reverbVoices } := by
  unfold routeReverb reverbChip
  dsimp only
  split
  · next hsame =>
    refine ⟨e.reverbVoices, fun w => ?_, rfl⟩
    split
    · next hw => rw [hw, hsame]
    · rfl
  · exact ⟨_, fun w => VoiceSet.contains_insert_or_erase hv _, rfl⟩

/-- What a note starts from, apart from its track. -/
def stage (e : Engine σ) :=
  (e.module, e.chip, e.reverbVoices, e.clock, e.effectVolume, e.musicVolume, e.panMode)

/-- How a note of a track starts does not depend on the voices that the track has. -/
theorem note_congr {e e' : Engine σ} {i n : Nat} (hstage : e'.stage = e.stage)
    (htrack : e'.track i = { e.track i with voicesActive := n }) :
    e'.noteVoice i = e.noteVoice i ∧ e'.noteRegisters i = e.noteRegisters i ∧
      ∀ v, e'.reverbChip v i = e.reverbChip v i := by
  simp only [stage, Prod.mk.injEq] at hstage
  obtain ⟨hmodule, hchip, hreverb, hclock, heffects, hmusic, hmode⟩ := hstage
  refine ⟨?_, ?_, fun v => ?_⟩
  · unfold noteVoice
    rw [htrack, hclock]
  · unfold noteRegisters levels classVolume
    rw [htrack, hmodule, heffects, hmusic, hmode]
  · unfold reverbChip
    rw [htrack, hchip, hreverb]

/-- A note that starts is written into its voice, which is sent to the reverb unit or taken
away from it and keyed on once; its track counts a voice more. -/
theorem startVoice_eq {e : Engine σ} {v i : Nat} {patchVoice : UInt16} {patch : PatchVoice}
    (note velocity : UInt8) (hv : v < e.voices.limit) (hwidth : v < 32)
    (hpatch : e.module.patches.voice? patchVoice.toNat = some patch) :
    ∃ reverbVoices : VoiceSet,
      (∀ w, reverbVoices.contains w =
        if w = v then (e.track i).reverb != 0 else e.reverbVoices.contains w) ∧
      e.startVoice v i patchVoice note velocity =
        { e.modifyTrack i Track.withVoice with
          voices := e.voices.occupy v (e.noteVoice i patchVoice patch note velocity)
          chip := SoundChip.keyOnWith (VoiceSet.single v) .start
            (e.noteRegisters i patch note velocity) (e.reverbChip v i)
          reverbVoices } := by
  let e' : Engine σ := { e.modifyTrack i Track.withVoice with
    voices := e.voices.occupy v (e.noteVoice i patchVoice patch note velocity) }
  have hstarts : e.startVoice v i patchVoice note velocity = e'.keyOn v patch := by
    unfold startVoice
    rw [hpatch]
    rfl
  have hvoice : e'.voice v = e.noteVoice i patchVoice patch note velocity :=
    (VoicePool.voice_occupy e.voices v v _ hv).trans (if_pos rfl)
  have hread : e'.track i = if i < e.tracks.size then (e.track i).withVoice else e.track i := by
    refine (track_modifyTrack e i i Track.withVoice).trans ?_
    simp only [true_and]
  have htrack : e'.track i = { e.track i with voicesActive := (e'.track i).voicesActive } := by
    rw [hread]
    split <;> rfl
  obtain ⟨-, hregisters, hchip⟩ := @note_congr _ _ e e' i _ rfl htrack
  obtain ⟨reverbVoices, hreverb, hroute⟩ := @routeReverb_eq _ _ e' v hwidth
  have howner : (e'.voice v).track = i := by rw [hvoice]; rfl
  have hstart : (e'.routeReverb v).startRegisters v patch =
      e'.noteRegisters i patch note velocity := by
    have hrouted : (e'.routeReverb v).voice v =
        e.noteVoice i patchVoice patch note velocity := by
      rw [hroute]
      exact hvoice
    unfold startRegisters
    rw [hrouted, hroute]
    rfl
  refine ⟨reverbVoices, fun w => ?_, ?_⟩
  · rw [hreverb, howner, htrack]
    rfl
  · rw [hstarts, keyOn]
    dsimp only
    rw [hstart, hregisters, hroute, howner, hchip]

/-! ## A note that is asked for -/

/-- Track `i` may have no other voice, or there is none to be had: every voice plays for a
higher priority. -/
def Refuses (e : Engine σ) (i : Nat) : Prop :=
  (e.track i).maxVoices ≤ (e.track i).voicesActive ∨
    ∀ v < e.voices.limit, (e.voice v).active = true ∧ (e.track i).priority < (e.voice v).priority

instance (e : Engine σ) (i : Nat) : Decidable (e.Refuses i) :=
  inferInstanceAs (Decidable (_ ∨ ∀ v < e.voices.limit, _))

/-- A note of track `i` takes voice `v`, and leaves `e'` behind. -/
structure TakesVoice (e : Engine σ) (i v : Nat) (patchVoice : UInt16) (patch : PatchVoice)
    (note velocity : UInt8) (e' : Engine σ) : Prop where
  choice : e.voices.choose (e.track i).priority =
    some (if (e.voice v).active then .steal v else .free v)
  voice : e'.voice v = e.noteVoice i patchVoice patch note velocity
  otherVoice : ∀ w, w ≠ v → e'.voice w = e.voice w
  limit : e'.voices.limit = e.voices.limit
  inUse : e'.voices.active =
    if (e.voice v).active then e.voices.active else e.voices.active + 1
  chip : e'.chip = SoundChip.keyOnWith (VoiceSet.single v) .start
    (e.noteRegisters i patch note velocity) (e.reverbChip v i)
  reverb : ∀ w, e'.reverbVoices.contains w =
    if w = v then (e.track i).reverb != 0 else e.reverbVoices.contains w
  /-- The track of the note counts its voice, unless it is one that it had before. -/
  player : e'.track i =
    if (e.voice v).ownedBy i then e.track i else (e.track i).withVoice
  /-- Another track that had the voice has it no more, and ends with its last one if it was
  turned off. -/
  owner : ∀ j, j ≠ i → (e.voice v).ownedBy j = true →
    e'.track j =
      if e.EndsOwner v then (e.track j).withoutVoice.retired else (e.track j).withoutVoice
  otherTrack : ∀ j, j ≠ i → (e.voice v).ownedBy j = false → e'.track j = e.track j
  tracks_size : e'.tracks.size = e.tracks.size
  /-- A slot changes only if it loses that track, and is free only if it loses its last. -/
  slots : e'.slots =
    if e.FreesOwner v then
      e.slots.modify (e.track (e.voice v).track).slot (·.withoutTrack (e.voice v).track)
    else e.slots
  tracksActive : e'.tracksActive = if e.FreesOwner v then e.tracksActive - 1 else e.tracksActive
  slotsActive : e'.slotsActive =
    if e.FreesOwner v ∧ (e.slot (e.track (e.voice v).track).slot).tracksActive = 1 then
      e.slotsActive - 1
    else e.slotsActive
  rest : e' = { e with
    chip := e'.chip
    voices := e'.voices
    reverbVoices := e'.reverbVoices
    tracks := e'.tracks
    slots := e'.slots
    tracksActive := e'.tracksActive
    slotsActive := e'.slotsActive }

omit [SoundChip σ] in
theorem refuses_iff {e : Engine σ} {i : Nat} : e.Refuses i ↔
    (e.track i).maxVoices ≤ (e.track i).voicesActive ∨
      e.voices.choose (e.track i).priority = none := by
  rw [VoicePool.choose_eq_none_iff]
  rfl

theorem playNote_of_refuses {e : Engine σ} {i : Nat} (h : e.Refuses i) (patchVoice : UInt16)
    (note velocity : UInt8) : e.playNote i patchVoice note velocity = e := by
  unfold playNote
  dsimp only
  split
  · rfl
  · next hroom =>
    rw [(refuses_iff.mp h).resolve_left hroom]

omit [SoundChip σ] in
/-- A voice that is freed and occupied again is counted once more, if it was not before. -/
theorem Manned.active_retake {e : Engine σ} (h : e.Manned) {v : Nat} (hv : v < e.voices.limit)
    (voice : Voice) :
    ((e.voices.vacate v).occupy v voice).active =
      if (e.voice v).active then e.voices.active else e.voices.active + 1 := by
  have hidle : ((e.voices.vacate v).voice v).active = false := by
    rw [VoicePool.voice_vacate]
    split
    · rfl
    · next hnot => simpa using hnot
  have htaken : ((e.voices.vacate v).occupy v voice).active = (e.voices.vacate v).active + 1 := by
    rw [VoicePool.occupy, if_pos (by simpa using hv), if_neg (Bool.eq_false_iff.mp hidle)]
  have hleft : (e.voices.vacate v).active =
      if (e.voice v).active then e.voices.active - 1 else e.voices.active :=
    apply_ite VoicePool.active _ _ _
  rw [htaken, hleft]
  split
  · next hbusy => exact Nat.sub_add_cancel (h.active_pos hbusy)
  · rfl

/-- A note that starts on a voice that was freed for it starts as if the voice had been
idle: what is read for it is as it was before. -/
theorem WellFormed.startVoice_freeVoice {e : Engine σ} (h : e.WellFormed) {i v : Nat}
    (hi : (e.track i).MayPlay) {patchVoice : UInt16} {patch : PatchVoice}
    (hpatch : e.module.patches.voice? patchVoice.toNat = some patch)
    (hv : v < e.voices.limit) (hwidth : v < 32) (note velocity : UInt8) :
    ∃ reverbVoices : VoiceSet,
      (∀ w, reverbVoices.contains w =
        if w = v then (e.track i).reverb != 0 else e.reverbVoices.contains w) ∧
      (e.freeVoice v).startVoice v i patchVoice note velocity =
        { (e.freeVoice v).modifyTrack i Track.withVoice with
          voices := (e.freeVoice v).voices.occupy v (e.noteVoice i patchVoice patch note velocity)
          chip := SoundChip.keyOnWith (VoiceSet.single v) .start
            (e.noteRegisters i patch note velocity) (e.reverbChip v i)
          reverbVoices } := by
  have hstage : (e.freeVoice v).stage = e.stage := by
    rw [(h.frees v).rest]
    rfl
  have htrack : (e.freeVoice v).track i =
      { e.track i with voicesActive := ((e.freeVoice v).track i).voicesActive } := by
    rw [h.voices.track_freeVoice_of_mayPlay hi]
    split <;> rfl
  obtain ⟨hvoice, hregisters, hchip⟩ := note_congr hstage htrack
  have hplace : v < (e.freeVoice v).voices.limit := by simpa using hv
  have hmodule : (e.freeVoice v).module = e.module := congrArg Prod.fst hstage
  have hreverbs : (e.freeVoice v).reverbVoices = e.reverbVoices := congrArg (·.2.2.1) hstage
  obtain ⟨reverbVoices, hreverb, hstarts⟩ := startVoice_eq (i := i) note velocity hplace hwidth
    (by rw [hmodule]; exact hpatch)
  rw [hvoice, hregisters, hchip] at hstarts
  refine ⟨reverbVoices, fun w => ?_, hstarts⟩
  rw [hreverb, htrack, hreverbs]

/-- What a note does that takes a voice, from another note if need be. -/
theorem Poised.takesVoice {e : Engine σ} (h : e.Poised) {i v : Nat} (hi : (e.track i).MayPlay)
    {patchVoice : UInt16} {patch : PatchVoice}
    (hpatch : e.module.patches.voice? patchVoice.toNat = some patch)
    (hv : v < e.voices.limit)
    (hchoice : e.voices.choose (e.track i).priority =
      some (if (e.voice v).active then .steal v else .free v)) (note velocity : UInt8) :
    e.TakesVoice i v patchVoice patch note velocity
      ((e.freeVoice v).startVoice v i patchVoice note velocity) := by
  have hwidth : v < 32 := Nat.lt_of_lt_of_le hv (Nat.le_trans h.manned.limit_le (by decide))
  have hfrees := h.frees v
  have hplace : v < (e.freeVoice v).voices.limit := by simpa using hv
  obtain ⟨reverbVoices, hreverb, hstarts⟩ :=
    h.startVoice_freeVoice hi hpatch hv hwidth note velocity
  have hread : ∀ j, ((e.freeVoice v).startVoice v i patchVoice note velocity).track j =
      if i = j ∧ j < e.tracks.size then ((e.freeVoice v).track j).withVoice
      else (e.freeVoice v).track j := by
    intro j
    rw [hstarts]
    refine (track_modifyTrack _ i j _).trans ?_
    rw [tracks_size_freeVoice]
  have hvoices : ∀ w, ((e.freeVoice v).startVoice v i patchVoice note velocity).voice w =
      if v = w then e.noteVoice i patchVoice patch note velocity else (e.freeVoice v).voice w := by
    intro w
    rw [hstarts]
    exact VoicePool.voice_occupy _ v w _ hplace
  constructor
  case choice => exact hchoice
  case voice => rw [hvoices, if_pos rfl]
  case otherVoice =>
    intro w hw
    rw [hvoices, if_neg hw.symm, voice_freeVoice, if_neg fun hp => hw hp.1.symm]
  case limit =>
    rw [hstarts]
    exact (VoicePool.limit_occupy _ v _).trans (limit_freeVoice e v)
  case inUse =>
    rw [hstarts]
    show ((e.freeVoice v).voices.occupy v _).active = _
    rw [voices_freeVoice]
    exact h.manned.active_retake hv _
  case chip => rw [hstarts]
  case reverb =>
    intro w
    rw [hstarts]
    exact hreverb w
  case player =>
    rw [hread, if_pos ⟨rfl, lt_size_of_isActive hi.active⟩,
      h.voices.track_freeVoice_of_mayPlay hi]
    split
    · next howned =>
      obtain ⟨hbusy, rfl⟩ := Voice.ownedBy_iff.mp howned
      exact Track.withVoice_withoutVoice (h.voices.sounds hbusy).counts
    · rfl
  case owner =>
    intro j hj howned
    rw [hread, if_neg fun hp => hj hp.1.symm, h.voices.track_freeVoice, if_pos howned]
  case otherTrack =>
    intro j hj howned
    rw [hread, if_neg fun hp => hj hp.1.symm, h.voices.track_freeVoice, howned,
      if_neg Bool.false_ne_true]
  case tracks_size => rw [tracks_size_startVoice, tracks_size_freeVoice]
  case slots =>
    rw [hstarts]
    exact hfrees.slots
  case tracksActive =>
    rw [hstarts]
    exact hfrees.tracksActive
  case slotsActive =>
    rw [hstarts]
    exact hfrees.slotsActive
  case rest =>
    rw [hstarts, hfrees.rest]
    rfl

/-- No track comes to have more voices than it may. -/
theorem voicesActive_playNote_le {e : Engine σ} {i j : Nat} (patchVoice : UInt16)
    (note velocity : UInt8) (h : (e.track j).voicesActive ≤ (e.track j).maxVoices) :
    ((e.playNote i patchVoice note velocity).track j).voicesActive ≤ (e.track j).maxVoices := by
  rcases playNote_eq e i patchVoice note velocity with heq | ⟨hroom, v, -, heq⟩
  · rwa [heq]
  · have hfreed : ((e.freeVoice v).track j).voicesActive ≤ (e.track j).voicesActive := by
      rw [track_freeVoice]
      split
      · exact Nat.le_trans (Nat.le_of_eq (Track.voicesActive_voiceFreed _)) (Nat.sub_le _ 1)
      · exact Nat.le_refl _
    rw [heq, track_startVoice]
    split
    · next hplayer =>
      obtain ⟨-, rfl, -⟩ := hplayer
      exact Nat.lt_of_le_of_lt hfreed hroom
    · exact Nat.le_trans hfreed h

/-- A note of a track that may play leaves all books right. -/
theorem Poised.playNote {e : Engine σ} (h : e.Poised) {i : Nat} (hi : (e.track i).MayPlay)
    (patchVoice : UInt16) (note velocity : UInt8) :
    (e.playNote i patchVoice note velocity).Poised := by
  have hsteps := steps_playNote e i patchVoice note velocity
  have hlt := lt_size_of_isActive hi.active
  constructor
  case toWellFormed => exact h.toWellFormed.playNote hi patchVoice note velocity
  case manned =>
    rcases playNote_eq e i patchVoice note velocity with heq | ⟨-, v, hv, heq⟩
    · rw [heq]
      exact h.manned
    · rw [heq]
      exact (h.manned.freeVoice v).startVoice (by simpa using hv) (by simpa using hlt) _ _ _
  case count =>
    intro j hactive hdriver
    have hcount := h.count j ((hsteps j).isActive hactive)
      ((hsteps j).place.2.2.2.1 ▸ hdriver)
    rcases playNote_eq e i patchVoice note velocity with heq | ⟨-, v, hv, heq⟩
    · rwa [heq]
    · have hfreed := balance_freeVoice v (Nat.le_of_eq hcount.symm)
      have hstarted := @balance_startVoice _ _ (e.freeVoice v) v i patchVoice note velocity
        (by simpa using hv) (by simp [active_freeVoice]) (by simpa using hlt) j
      rw [heq]
      omega
  case atMost =>
    intro j hactive hdriver
    rw [(hsteps j).maxVoices]
    exact voicesActive_playNote_le patchVoice note velocity
      (h.atMost j ((hsteps j).isActive hactive) ((hsteps j).place.2.2.2.1 ▸ hdriver))

/-- A note that a running track asks for is refused, and then nothing at all changes, or it
takes a voice with all that this entails; the books are right in either case. -/
theorem playNote_all_or_nothing {e : Engine σ} (h : e.Poised) {i : Nat}
    (hrun : (e.track i).isRunning = true) (hdriver : (e.track i).driver = .voices)
    {patchVoice : UInt16} {patch : PatchVoice}
    (hpatch : e.module.patches.voice? patchVoice.toNat = some patch) (note velocity : UInt8) :
    (e.Refuses i → e.playNote i patchVoice note velocity = e) ∧
    (¬ e.Refuses i → ∃ v, e.TakesVoice i v patchVoice patch note velocity
      (e.playNote i patchVoice note velocity)) ∧
    (e.playNote i patchVoice note velocity).Poised := by
  have hi := mayPlay_of_isRunning (h.rests i) hrun hdriver
  refine ⟨fun hrefuses => playNote_of_refuses hrefuses patchVoice note velocity,
    fun htakes => ?_, h.playNote hi patchVoice note velocity⟩
  rw [refuses_iff, not_or, Nat.not_le] at htakes
  rcases playNote_of_choose htakes.1 patchVoice note velocity with
    ⟨hnone, -⟩ | ⟨v, hfree | hsteal, heq⟩
  · exact absurd hnone htakes.2
  · obtain ⟨hv, hidle⟩ := VoicePool.choose_free hfree
    have hidle' : (e.voice v).active = false := hidle
    rw [heq]
    exact ⟨v, h.takesVoice hi hpatch hv (by rw [hfree, hidle']; rfl) note velocity⟩
  · obtain ⟨hv, hbusy⟩ := VoicePool.choose_steal hsteal
    have hbusy' : (e.voice v).active = true := hbusy
    rw [heq]
    exact ⟨v, h.takesVoice hi hpatch hv (by rw [hsteal, hbusy']; rfl) note velocity⟩

end Starts

end Engine

open Engine

/-- The books are right in every careful run. -/
theorem poised_throughout {module : SoundModule} {chip : RecorderChip} {e : Engine RecorderChip}
    (hmake : Engine.make module chip = .ok e) {calls : List (Call RecorderChip)}
    (hcareful : Session.Allows Session.Careful { engine := e } calls) :
    Session.Throughout (fun s => s.engine.Poised) { engine := e } calls := by
  have hkept := hcareful.throughout
    (fun s => s.engine.InOrder ∧ s.engine.Seated ∧ s.engine.Manned)
    (fun s call h hcall => ⟨inOrder_perform s call h.1 hcall,
      enduring_manned.perform (fun _ he _ _ hi => he.1.lt_size hi) s call h.2⟩)
    ⟨inOrder_make hmake, seated_make hmake, manned_make hmake⟩
  exact hkept.imp fun s h =>
    ⟨h.1.wellFormed, h.2.2, fun i _ _ => h.1.owned.count i, fun i _ _ => h.1.owned.atMost i⟩

/-- A sequence plays and is stopped, and starts again while its note fades. -/
def takeover : List (Call RecorderChip) := [.start 0 {}, .tick, .stop 0, .start 0 {}]

/-- The engine behind them. -/
def Engine.afterTakeover (e : Engine RecorderChip) : Engine RecorderChip :=
  (Session.run { engine := e } takeover).engine

/-- A note of the second start takes the only voice, and with it the first comes to its
end. -/
theorem playNote_all_or_nothing_steal : ∃ e : Engine RecorderChip,
    Engine.make twice {} = .ok e ∧ e.afterTakeover.Poised ∧
      e.afterTakeover.FreesOwner 0 ∧ ¬ e.afterTakeover.Refuses 1 ∧
      (∃ patch v, e.afterTakeover.TakesVoice 1 v 0 patch 62 100
        (e.afterTakeover.playNote 1 0 62 100)) ∧
      (e.afterTakeover.playNote 1 0 62 100).Poised := by
  obtain ⟨e, hmake, hcareful, hrun, hdriver, hpatch, hfrees, htakes⟩ :
      ∃ e : Engine RecorderChip, Engine.make twice {} = .ok e ∧
        Session.Allows Session.Careful { engine := e } takeover ∧
        (e.afterTakeover.track 1).isRunning = true ∧
        (e.afterTakeover.track 1).driver = .voices ∧
        (e.afterTakeover.module.patches.voice? (0 : UInt16).toNat).isSome = true ∧
        e.afterTakeover.FreesOwner 0 ∧ ¬ e.afterTakeover.Refuses 1 :=
    exists_make (by decide +kernel)
  obtain ⟨patch, hpatch⟩ := Option.isSome_iff_exists.mp hpatch
  have hpoised : e.afterTakeover.Poised := (poised_throughout hmake hcareful).last
  obtain ⟨-, hnote, hstays⟩ := playNote_all_or_nothing hpoised hrun hdriver hpatch 62 100
  exact ⟨e, hmake, hpoised, hfrees, htakes, ⟨patch, hnote htakes⟩, hstays⟩

end SoundSequencer
