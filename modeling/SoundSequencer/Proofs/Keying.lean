/-
SoundSequencer.Proofs.Keying — the keys of the recording chip, and what is
still to be keyed off.

* `RecorderChip.status` is the key status of a voice; `SameKeys` relates two
  states of the chip with the same one for every voice.
* `Engine.pending` says that a voice is to be keyed off at the end of the
  tick. `Releases` relates two engines between which some notes are released
  and no more; every deed is such a step.
* `status_startVoice` and `status_flushReleases` tell the keys after a note
  and after the flush.
-/
import SoundSequencer.Chip.Recorder
import SoundSequencer.Proofs.Ownership

namespace SoundSequencer

/-! ## Sets of voices -/

namespace VoiceSet

theorem contains_or (s t : VoiceSet) (v : Nat) :
    contains (s ||| t) v = (s.contains v || t.contains v) := by
  simp [contains]

theorem contains_ofList {vs : List Nat} {v : Nat} (hmem : v ∈ vs) (hv : v < 32) :
    (ofList vs).contains v = true := by
  suffices h : ∀ (l : List Nat) (s : VoiceSet), s.contains v = true ∨ v ∈ l →
      (l.foldl insert s).contains v = true from h vs empty (.inr hmem)
  intro l
  induction l with
  | nil => exact fun s hs => hs.resolve_right List.not_mem_nil
  | cons w l ih =>
    intro s hs
    refine ih (s.insert w) ?_
    rcases hs with hold | hl
    · exact .inl (by rw [insert, contains_or, hold, Bool.true_or])
    · rcases List.mem_cons.mp hl with rfl | hl
      · exact .inl (by rw [contains_insert hv]; simp)
      · exact .inr hl

end VoiceSet

/-! ## The keys of the chip -/

namespace RecorderChip

/-- The key status of a voice. -/
def status (chip : RecorderChip) (v : Nat) : KeyStatus := (chip.voice v).status

theorem voice_mapVoices (chip : RecorderChip) (voices : VoiceSet) (f : ChipVoice → ChipVoice)
    (v : Nat) : (chip.mapVoices voices f).voice v =
      if v < chip.voices.size ∧ voices.contains v then f (chip.voice v) else chip.voice v := by
  by_cases hv : v < chip.voices.size
  · simp [voice, mapVoices, Array.getD_eq_getD_getElem?, hv]
  · simp [voice, mapVoices, Array.getD_eq_getD_getElem?, hv]

/-- Every voice has the same key status, and the chip has the same voices and the
same kind of release. -/
structure SameKeys (a b : RecorderChip) : Prop where
  size : b.voices.size = a.voices.size
  instantRelease : b.instantRelease = a.instantRelease
  status : ∀ v, b.status v = a.status v

namespace SameKeys

theorem refl (chip : RecorderChip) : SameKeys chip chip := ⟨rfl, rfl, fun _ => rfl⟩

theorem trans {a b c : RecorderChip} (hab : SameKeys a b) (hbc : SameKeys b c) :
    SameKeys a c where
  size := hbc.size.trans hab.size
  instantRelease := hbc.instantRelease.trans hab.instantRelease
  status v := (hbc.status v).trans (hab.status v)

end SameKeys

theorem sameKeys_mapVoices (chip : RecorderChip) (voices : VoiceSet) {f : ChipVoice → ChipVoice}
    (hf : ∀ voice, (f voice).status = voice.status) :
    SameKeys chip (chip.mapVoices voices f) where
  size := by simp [mapVoices]
  instantRelease := rfl
  status v := by
    unfold status
    rw [voice_mapVoices]
    split
    · exact hf _
    · rfl

theorem sameKeys_of_unkeyed {a b : RecorderChip} (h : Unkeyed a b) : SameKeys a b := by
  induction h with
  | refl => exact .refl a
  | registers voices _ _ _ ih => exact ih.trans (sameKeys_mapVoices _ voices fun _ => rfl)
  | reverb _ voices _ ih => exact ih.trans (sameKeys_mapVoices _ voices fun _ => rfl)
  | masterVolume _ _ ih => exact ⟨ih.size, ih.instantRelease, ih.status⟩
  | cdVolume _ _ ih => exact ⟨ih.size, ih.instantRelease, ih.status⟩
  | startTransfer _ _ ih => exact ⟨ih.size, ih.instantRelease, ih.status⟩
  | writeTransfer _ _ ih => exact ⟨ih.size, ih.instantRelease, ih.status⟩
  | transferComplete _ _ ih => exact ⟨ih.size, ih.instantRelease, ih.status⟩

/-- What voices are set to when they are keyed. -/
def keyedStatus (chip : RecorderChip) (on : Bool) : KeyStatus :=
  if on then .on else if chip.instantRelease then .off else .releasing

theorem status_setKey (chip : RecorderChip) (on : Bool) (voices : VoiceSet) (v : Nat) :
    (setKey on voices chip).status v =
      if v < chip.voices.size ∧ voices.contains v then chip.keyedStatus on
      else chip.status v := by
  have hkeyed : (setKey on voices chip).status v =
      ((chip.mapVoices voices fun voice =>
        { voice with status := chip.keyedStatus on }).voice v).status := by
    unfold setKey
    cases on <;> rfl
  rw [hkeyed, voice_mapVoices]
  split <;> rfl

theorem size_setKey (chip : RecorderChip) (on : Bool) (voices : VoiceSet) :
    (setKey on voices chip).voices.size = chip.voices.size := by
  unfold setKey
  cases on <;> simp [mapVoices]

theorem instantRelease_setKey (chip : RecorderChip) (on : Bool) (voices : VoiceSet) :
    (setKey on voices chip).instantRelease = chip.instantRelease := by
  unfold setKey
  cases on <;> rfl

theorem status_finishRelease (chip : RecorderChip) (v w : Nat) :
    (chip.finishRelease v).status w = if v = w then .off else chip.status w := by
  by_cases hw : w < chip.voices.size
  · by_cases hvw : v = w
    · simp [status, voice, finishRelease, Array.getD_eq_getD_getElem?, Array.getElem_modify,
        hw, hvw]
    · simp [status, voice, finishRelease, Array.getD_eq_getD_getElem?, Array.getElem_modify,
        hw, hvw]
  · simp [status, voice, finishRelease, Array.getD_eq_getD_getElem?, hw]

theorem status_finishAllReleases (chip : RecorderChip) (v : Nat) :
    chip.finishAllReleases.status v =
      if chip.status v = .releasing then .off else chip.status v := by
  by_cases hv : v < chip.voices.size
  · simp only [status, voice, finishAllReleases, Array.getD_eq_getD_getElem?, hv,
      Array.getElem?_map, Array.getElem?_eq_getElem, Option.map_some, Option.getD_some]
    split
    · rfl
    · rfl
  · simp [status, voice, finishAllReleases, Array.getD_eq_getD_getElem?, hv]

end RecorderChip

namespace Engine

/-! ## Notes that are released -/

/-- Whether voice `v` is to be keyed off at the end of the tick. -/
def pending {σ : Type} (e : Engine σ) (v : Nat) : Bool :=
  e.toRelease.contains v || e.toMute.contains v

/-- Nothing happens to the voices but that some are released, and those are pending. -/
structure Releases (e e' : Engine RecorderChip) : Prop where
  module : e'.module = e.module
  chip : RecorderChip.SameKeys e.chip e'.chip
  limit : e'.voices.limit = e.voices.limit
  pending : ∀ v, e.pending v = true → e'.pending v = true
  voice : ∀ v, v < 32 → e'.pending v = false → e'.voice v = e.voice v
  active : ∀ v, (e'.voice v).active = (e.voice v).active
  patchVoice : ∀ v, (e'.voice v).patchVoice = (e.voice v).patchVoice

theorem Releases.trans {a b c : Engine RecorderChip} (hab : Releases a b) (hbc : Releases b c) :
    Releases a c where
  module := hbc.module.trans hab.module
  chip := hab.chip.trans hbc.chip
  limit := hbc.limit.trans hab.limit
  pending v hv := hbc.pending v (hab.pending v hv)
  voice v hv hrest := by
    have hrest' : b.pending v = false := by
      cases hb : b.pending v with
      | false => rfl
      | true =>
        rw [hbc.pending v hb] at hrest
        cases hrest
    rw [hbc.voice v hv hrest, hab.voice v hv hrest']
  active v := (hbc.active v).trans (hab.active v)
  patchVoice v := (hbc.patchVoice v).trans (hab.patchVoice v)

theorem releases_of_same {e e' : Engine RecorderChip} (hmodule : e'.module = e.module)
    (hchip : RecorderChip.SameKeys e.chip e'.chip) (hvoices : e'.voices = e.voices)
    (hrelease : e'.toRelease = e.toRelease) (hmute : e'.toMute = e.toMute) : Releases e e' where
  module := hmodule
  chip := hchip
  limit := by rw [hvoices]
  pending v hv := by
    unfold Engine.pending at hv ⊢
    rwa [hrelease, hmute]
  voice v _ _ := by unfold Engine.voice; rw [hvoices]
  active v := by unfold Engine.voice; rw [hvoices]
  patchVoice v := by unfold Engine.voice; rw [hvoices]

theorem Releases.refl (e : Engine RecorderChip) : Releases e e :=
  releases_of_same rfl (.refl _) rfl rfl rfl

theorem SameSound.releases {e e' : Engine RecorderChip} (h : SameSound e e') : Releases e e' :=
  releases_of_same h.module (h.chip ▸ .refl _) h.voices h.toRelease h.toMute

theorem Tuned.releases {e e' : Engine RecorderChip} (h : Tuned e e') : Releases e e' :=
  releases_of_same h.module (RecorderChip.sameKeys_of_unkeyed h.chip) h.voices h.toRelease
    h.toMute

/-- Where voices are updated, and all that are updated are to be released. -/
theorem releases_update {e e' : Engine RecorderChip} {q : Voice → Bool} {f : Voice → Voice}
    (hmodule : e'.module = e.module) (hchip : e'.chip = e.chip)
    (hvoices : e'.voices = e.voices.update q f)
    (hrelease : e'.toRelease = e.toRelease ||| VoiceSet.ofList (e.voices.select q))
    (hmute : ∀ v, e.toMute.contains v = true → e'.toMute.contains v = true)
    (hactive : ∀ v, (f v).active = v.active) (hpatch : ∀ v, (f v).patchVoice = v.patchVoice) :
    Releases e e' where
  module := hmodule
  chip := hchip ▸ .refl _
  limit := by rw [hvoices, VoicePool.limit_update]
  pending v hv := by
    unfold Engine.pending at hv ⊢
    rw [hrelease, VoiceSet.contains_or]
    simp only [Bool.or_eq_true] at hv ⊢
    exact hv.imp .inl (hmute v)
  voice v hv hrest := by
    unfold Engine.pending at hrest
    rw [hrelease, VoiceSet.contains_or] at hrest
    simp only [Bool.or_eq_false_iff] at hrest
    unfold Engine.voice
    rw [hvoices]
    by_cases hlt : v < e.voices.limit
    · rw [VoicePool.voice_update _ _ _ _ hlt]
      split
      · next hq =>
        have hmem := VoiceSet.contains_ofList (VoicePool.mem_select.mpr ⟨hlt, hq⟩) hv
        rw [hrest.1.2] at hmem
        cases hmem
      · rfl
    · have hout : e.voices.voices.size ≤ v := Nat.le_of_not_lt hlt
      simp [VoicePool.voice, VoicePool.update, Array.getD_eq_getD_getElem?, hout]
  active v := by
    unfold Engine.voice
    rw [hvoices]
    exact VoicePool.voice_update_of Voice.active e.voices q hactive v
  patchVoice v := by
    unfold Engine.voice
    rw [hvoices]
    exact VoicePool.voice_update_of Voice.patchVoice e.voices q hpatch v

theorem releases_noteOff (e : Engine RecorderChip) (i : Nat) (note : UInt8) :
    Releases e (e.noteOff i note) :=
  releases_update rfl rfl rfl rfl (fun _ h => h) (fun _ => rfl) fun _ => rfl

theorem releases_releaseVoices (e : Engine RecorderChip) (i : Nat) :
    Releases e (e.releaseVoices i) := by
  unfold releaseVoices
  split
  · exact .refl e
  · refine releases_update rfl rfl rfl rfl (fun v h => ?_) (fun _ => rfl) fun _ => rfl
    rw [VoiceSet.contains_or, h, Bool.true_or]

/-- Every note of a track that counts voices is released. -/
theorem pending_releaseVoices {e : Engine RecorderChip} {i v : Nat}
    (hv : (e.voice v).ownedBy i = true) (hcount : (e.track i).voicesActive ≠ 0)
    (hwidth : v < 32) : (e.releaseVoices i).pending v = true := by
  have hactive : (e.voices.voice v).active = true := (Bool.and_eq_true_iff.mp hv).1
  have hmem : v ∈ e.voices.ownedBy i :=
    VoicePool.mem_select.mpr ⟨VoicePool.lt_limit_of_active hactive, hv⟩
  unfold releaseVoices
  rw [if_neg hcount]
  show ((e.toRelease ||| VoiceSet.ofList _).contains v || _) = true
  rw [VoiceSet.contains_or, VoiceSet.contains_ofList hmem hwidth]
  simp

theorem releases_muteTrack (e : Engine RecorderChip) (i : Nat) : Releases e (e.muteTrack i) := by
  unfold muteTrack
  split
  · exact .refl e
  · exact releases_releaseVoices e i

theorem releases_turnOff (e : Engine RecorderChip) (i : Nat) : Releases e (e.turnOff i) := by
  rw [turnOff_eq]
  split
  · exact (sameSound_retireTrack e i).releases
  · split
    · exact (sameSound_retireTrack e i).releases
    · exact (releases_releaseVoices e i).trans (sameSound_awaitVoices _ i).releases

theorem releases_deed {e e' : Engine RecorderChip} (h : Deed e e') : Releases e e' := by
  cases h with
  | tuned h => exact h.releases
  | turnOff => exact releases_turnOff e _
  | endSequence s => exact foldl_relates .refl (fun _ _ _ => .trans) releases_turnOff _ e
  | noteOff i note => exact releases_noteOff e i note
  | pauseTrack => exact (sameSound_pauseTrack e _).releases
  | muteTrack i => exact releases_muteTrack e i

/-! ## Notes that start -/

/-- Module and pending releases are the same, and the chip has as many voices and the
same kind of release. -/
structure SameDue (e e' : Engine RecorderChip) : Prop where
  module : e'.module = e.module
  size : e'.chip.voices.size = e.chip.voices.size
  instantRelease : e'.chip.instantRelease = e.chip.instantRelease
  toRelease : e'.toRelease = e.toRelease
  toMute : e'.toMute = e.toMute

theorem SameDue.pending {e e' : Engine RecorderChip} (h : SameDue e e') (v : Nat) :
    e'.pending v = e.pending v := by
  unfold Engine.pending
  rw [h.toRelease, h.toMute]

theorem SameDue.trans {a b c : Engine RecorderChip} (hab : SameDue a b) (hbc : SameDue b c) :
    SameDue a c :=
  ⟨hbc.module.trans hab.module, hbc.size.trans hab.size,
    hbc.instantRelease.trans hab.instantRelease, hbc.toRelease.trans hab.toRelease,
    hbc.toMute.trans hab.toMute⟩

theorem chip_freeVoice {σ : Type} (e : Engine σ) (v : Nat) : (e.freeVoice v).chip = e.chip := by
  rw [freeVoice_eq]
  split
  · split
    · exact (sameSound_retireTrack _ _).chip
    · rfl
  · rfl

theorem sameDue_freeVoice (e : Engine RecorderChip) (v : Nat) : SameDue e (e.freeVoice v) := by
  rw [freeVoice_eq]
  split
  · split
    · have hretired := sameSound_retireTrack (e.dropVoice v) (e.voice v).track
      exact ⟨hretired.module, by rw [hretired.chip]; rfl, by rw [hretired.chip]; rfl,
        hretired.toRelease, hretired.toMute⟩
    · exact ⟨rfl, rfl, rfl, rfl, rfl⟩
  · exact ⟨rfl, rfl, rfl, rfl, rfl⟩

theorem sameKeys_routeReverb (e : Engine RecorderChip) (v : Nat) :
    RecorderChip.SameKeys e.chip (e.routeReverb v).chip := by
  unfold routeReverb
  dsimp only
  split
  · exact .refl _
  · exact RecorderChip.sameKeys_mapVoices _ _ fun _ => rfl

theorem sameDue_routeReverb (e : Engine RecorderChip) (v : Nat) : SameDue e (e.routeReverb v) := by
  have hkeys := sameKeys_routeReverb e v
  refine ⟨?_, hkeys.size, hkeys.instantRelease, ?_, ?_⟩ <;>
    · unfold routeReverb
      dsimp only
      split <;> rfl

/-- A note that starts keys its voice on, and no other. -/
theorem status_startVoice {e : Engine RecorderChip} {patchVoice : UInt16} {patch : PatchVoice}
    {v : Nat} (i : Nat) (note velocity : UInt8) (hv : v < 32) (hsize : v < e.chip.voices.size)
    (h : e.module.patches.voice? patchVoice.toNat = some patch) :
    SameDue e (e.startVoice v i patchVoice note velocity) ∧
      ∀ w, (e.startVoice v i patchVoice note velocity).chip.status w =
        if v = w then .on else e.chip.status w := by
  unfold startVoice
  rw [h]
  dsimp only
  generalize hstarted : modifyTrack _ i _ = e'
  have hdue : SameDue e e' := by
    rw [← hstarted]
    exact ⟨rfl, rfl, rfl, rfl, rfl⟩
  have hchip : e'.chip = e.chip := by
    rw [← hstarted]
    rfl
  have hroute := sameKeys_routeReverb e' v
  have hwrite : RecorderChip.SameKeys (e'.routeReverb v).chip
      (RecorderChip.writeRegisters (VoiceSet.single v) .start
        ((e'.routeReverb v).startRegisters v patch) (e'.routeReverb v).chip) :=
    RecorderChip.sameKeys_mapVoices _ _ fun _ => rfl
  have hkeys := hroute.trans hwrite
  have hkeyed : (e'.keyOn v patch).chip = RecorderChip.setKey true (VoiceSet.single v)
      (RecorderChip.writeRegisters (VoiceSet.single v) .start
        ((e'.routeReverb v).startRegisters v patch) (e'.routeReverb v).chip) := rfl
  have hsame := sameDue_routeReverb e' v
  refine ⟨hdue.trans ⟨hsame.module, ?_, ?_, hsame.toRelease, hsame.toMute⟩, fun w => ?_⟩
  · rw [hkeyed, RecorderChip.size_setKey, hkeys.size]
  · rw [hkeyed, RecorderChip.instantRelease_setKey, hkeys.instantRelease]
  · rw [hkeyed, RecorderChip.status_setKey, hkeys.size, hkeys.status, hchip,
      VoiceSet.contains_single hv]
    by_cases hvw : v = w
    · subst hvw
      simp [RecorderChip.keyedStatus, hsize]
    · simp [hvw]

/-! ## The flush -/

/-- The flush gives muted voices their release, which keys none, and then keys off all
that are pending. -/
theorem chip_flushReleases (e : Engine RecorderChip) :
    ∃ chip, RecorderChip.SameKeys e.chip chip ∧ e.flushReleases.chip =
      if e.toRelease ||| e.toMute = 0 then chip
      else RecorderChip.setKey false (e.toRelease ||| e.toMute) chip := by
  refine ⟨_, ?_, rfl⟩
  split
  · exact .refl _
  · exact RecorderChip.sameKeys_mapVoices _ _ fun _ => rfl

theorem size_flushReleases (e : Engine RecorderChip) :
    e.flushReleases.chip.voices.size = e.chip.voices.size := by
  obtain ⟨chip, hkeys, hchip⟩ := chip_flushReleases e
  rw [hchip]
  split
  · exact hkeys.size
  · exact (RecorderChip.size_setKey chip _ _).trans hkeys.size

theorem instantRelease_flushReleases (e : Engine RecorderChip) :
    e.flushReleases.chip.instantRelease = e.chip.instantRelease := by
  obtain ⟨chip, hkeys, hchip⟩ := chip_flushReleases e
  rw [hchip]
  split
  · exact hkeys.instantRelease
  · exact (RecorderChip.instantRelease_setKey chip _ _).trans hkeys.instantRelease

/-- The flush keys off every voice that is pending, and no other. -/
theorem status_flushReleases (e : Engine RecorderChip) (v : Nat) :
    e.flushReleases.chip.status v =
      if v < e.chip.voices.size ∧ e.pending v then e.chip.keyedStatus false
      else e.chip.status v := by
  obtain ⟨chip, hkeys, hchip⟩ := chip_flushReleases e
  have hpending : e.pending v = (e.toRelease ||| e.toMute).contains v :=
    (VoiceSet.contains_or _ _ v).symm
  rw [hchip, hpending]
  split
  · next hnone =>
    have hempty : VoiceSet.contains 0 v = false := by simp [VoiceSet.contains]
    rw [hnone, hempty, hkeys.status, if_neg fun hp => Bool.false_ne_true hp.2]
  · rw [RecorderChip.status_setKey, hkeys.size, hkeys.status, RecorderChip.keyedStatus,
      RecorderChip.keyedStatus, hkeys.instantRelease]

/-- On a chip that silences voices at key-off, the flush silences every voice that is
pending. -/
theorem status_flushReleases_of_pending {e : Engine RecorderChip}
    (hinstant : e.chip.instantRelease = true) {v : Nat} (hv : e.pending v = true) :
    e.flushReleases.chip.status v = .off := by
  rw [status_flushReleases]
  split
  · rw [RecorderChip.keyedStatus, hinstant]
    rfl
  · next hout =>
    -- a voice that the chip does not have is silent anyhow
    have hsize : e.chip.voices.size ≤ v := Nat.le_of_not_lt fun hlt => hout ⟨hlt, hv⟩
    rw [RecorderChip.status, RecorderChip.voice, Array.getD_eq_getD_getElem?,
      Array.getElem?_eq_none hsize]
    rfl

theorem pending_flushReleases (e : Engine RecorderChip) (v : Nat) :
    e.flushReleases.pending v = false := by
  simp [pending, flushReleases, VoiceSet.contains]

end Engine

end SoundSequencer
