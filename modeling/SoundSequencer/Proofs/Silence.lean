/-
SoundSequencer.Proofs.Silence — what is left when everything is stopped.

* `Engine.Settled` describes the states that are looked at: all books are right, every
  track that plays notes counts its voices, and no handle holds a track.
* `Engine.Fading` holds of a track that waits, turned off, for voices that the next
  flush keys off. `Settled.fading_stopAll` says that `stopAll` leaves no other
  track in the pool.
* `Engine.Fadeout` is what the freeing of voices then keeps; `stopAll_tick` says that
  one tick frees every voice, and with the last of each track the track and its slot.
-/
import SoundSequencer.Proofs.Executions
import SoundSequencer.Proofs.Firm
import SoundSequencer.Proofs.HeldNotes
import SoundSequencer.Proofs.MachineStarts

namespace SoundSequencer

namespace Track

/-- No step lets a track that is turned off and paused go on. -/
theorem Step.offStopped {t t' : Track} (h : Step t t')
    (ht : t.flags.off = true ∧ t.isStopped = true) :
    t'.flags.off = true ∧ t'.isStopped = true := by
  cases h with
  | tuned h =>
    have hoff : t'.flags.off = t.flags.off := (congrArg (·.flags.off) h :)
    have hstopped : t'.isStopped = t.isStopped := (congrArg Track.isStopped h :)
    rwa [hoff, hstopped]
  | paused => exact ⟨ht.1, rfl⟩
  | retired => exact ⟨ht.1, rfl⟩
  | awaiting => exact ⟨rfl, rfl⟩
  | voiceFreed =>
    unfold Track.voiceFreed
    split
    · exact ⟨ht.1, rfl⟩
    · exact ht
  | withVoice => exact ht

/-- If the track is in the pool, it waits, turned off, for voices that it counts. -/
def Waits (t : Track) : Prop :=
  t.isActive = true → t.Sounds ∧ t.flags.off = true ∧ t.isHandled = false

/-- With its last voice, a track that waits for it leaves the pool. -/
theorem Waits.voiceFreed {t : Track} (h : t.Waits) : t.voiceFreed.Waits := by
  unfold Track.voiceFreed
  split
  · intro hactive
    have hboth := Bool.and_eq_true_iff.mp hactive
    have hheld : t.isHandled = true := hboth.2
    rw [(h hboth.1).2.2] at hheld
    cases hheld
  · next hmore =>
    intro hactive
    obtain ⟨hsounds, hoff, hheld⟩ := h hactive
    exact ⟨⟨hsounds.active, hsounds.driver, fun hnone => hmore ⟨hnone, hoff⟩⟩, hoff, hheld⟩

end Track

namespace Engine

/-! ## States with all books right -/

/-- Tracks and slots agree, every voice in use is owned by a track of a sequence that
plays notes and counts it, tracks that are turned off are paused, and no handle holds
a track. The chip silences voices at key-off. -/
structure Settled (e : Engine RecorderChip) : Prop where
  form : e.WellFormed
  count : ∀ i, (e.track i).isActive = true → (e.track i).driver = .voices →
    (e.track i).voicesActive = (e.voices.ownedBy i).length
  manned : e.Manned
  unheld : ∀ i, (e.track i).isActive = true → (e.track i).isHandled = false
  wide : e.module.widestSequence ≤ maxTracksPerSequence
  instant : e.chip.instantRelease = true

/-- A track that plays notes waits, turned off, for its voices, all of which are to be
keyed off. -/
structure Fading (e : Engine RecorderChip) (i : Nat) : Prop where
  sounds : (e.track i).Sounds
  rests : (e.track i).flags.off = true ∧ (e.track i).isStopped = true
  pending : ∀ v, (e.voice v).ownedBy i = true → e.pending v = true

/-! ## Ending tracks -/

theorem isActive_retireTrack {σ : Type} {e : Engine σ} {i : Nat}
    (hheld : (e.track i).isHandled = false) : ((e.retireTrack i).track i).isActive = false := by
  rw [track_retireTrack]
  split
  · exact Bool.and_eq_false_iff.mpr (.inr hheld)
  · next hout =>
    rw [track_of_size_le (Nat.le_of_not_lt fun hi => hout ⟨rfl, hi⟩)]
    rfl

theorem SameOwners.ownedBy_iff {σ : Type} {e e' : Engine σ} (h : SameOwners e e') (v i : Nat) :
    (e'.voice v).ownedBy i = (e.voice v).ownedBy i := by
  simp only [Voice.ownedBy, h.active, h.track]

/-- A track that is turned off, and that no handle holds, leaves the pool or waits for its
voices. -/
theorem fading_turnOff {e : Engine RecorderChip} {i : Nat}
    (hlimit : e.voices.limit ≤ hardwareVoices) (hheld : (e.track i).isHandled = false)
    (hactive : ((e.turnOff i).track i).isActive = true) : (e.turnOff i).Fading i := by
  have hin : (e.track i).isActive = true := (steps_turnOff e i i).isActive hactive
  have hgone := isActive_retireTrack hheld
  have howners := sameOwners_turnOff e i
  rw [turnOff_eq] at hactive howners ⊢
  cases hdriver : (e.track i).driver with
  | silent =>
    simp only [hdriver, hgone] at hactive
    cases hactive
  | voices =>
    simp only [hdriver] at hactive howners ⊢
    by_cases hcount : (e.track i).voicesActive = 0
    · rw [if_pos hcount, hgone] at hactive
      cases hactive
    · rw [if_neg hcount] at howners ⊢
      have htrack : ((e.releaseVoices i).awaitVoices i).track i = (e.track i).awaiting := by
        rw [track_awaitVoices, track_releaseVoices,
          if_pos ⟨rfl, by simpa using lt_size_of_isActive hin⟩]
      refine ⟨?_, ?_, fun v hv => ?_⟩
      · rw [htrack]
        exact ⟨hin, hdriver, hcount⟩
      · rw [htrack]
        exact ⟨rfl, rfl⟩
      · rw [howners.ownedBy_iff] at hv
        have hlt := lt_limit_of_active (Bool.and_eq_true_iff.mp hv).1
        refine (sameSound_awaitVoices _ i).releases.pending v ?_
        exact pending_releaseVoices hv hcount
          (lt_of_lt_hardwareVoices (Nat.lt_of_lt_of_le hlt hlimit))

/-- What fades goes on fading when another track is turned off. -/
theorem Fading.turnOff {e : Engine RecorderChip} {i : Nat} (h : e.Fading i) (j : Nat) :
    (e.turnOff j).Fading i where
  sounds := sounds_turnOff e j i h.sounds
  rests := (steps_turnOff e j i).keeps (fun _ _ hstep => hstep.offStopped) h.rests
  pending v hv := by
    rw [(sameOwners_turnOff e j).ownedBy_iff] at hv
    exact (releases_turnOff e j).pending v (h.pending v hv)

/-- Tracks are being turned off; those that are `due` are still to come. -/
structure Ending (due : Nat → Prop) (e : Engine RecorderChip) : Prop where
  limit : e.voices.limit ≤ hardwareVoices
  unheld : ∀ i, (e.track i).isActive = true → (e.track i).isHandled = false
  fading : ∀ i, (e.track i).isActive = true → due i ∨ e.Fading i

theorem Ending.turnOff {due : Nat → Prop} {e : Engine RecorderChip} {j : Nat}
    (h : e.Ending fun i => i = j ∨ due i) : (e.turnOff j).Ending due where
  limit := by
    rw [(sameOwners_turnOff e j).limit]
    exact h.limit
  unheld i hi := by
    have hsteps := steps_turnOff e j i
    rw [hsteps.isHandled]
    exact h.unheld i (hsteps.isActive hi)
  fading i hi := by
    have hin := (steps_turnOff e j i).isActive hi
    rcases h.fading i hin with (rfl | hdue) | hfading
    · exact .inr (fading_turnOff h.limit (h.unheld i hin) hi)
    · exact .inl hdue
    · exact .inr (hfading.turnOff j)

theorem Ending.foldl {due : Nat → Prop} (l : List Nat) {e : Engine RecorderChip}
    (h : e.Ending fun i => i ∈ l ∨ due i) : (l.foldl Engine.turnOff e).Ending due := by
  induction l generalizing e with
  | nil => exact ⟨h.limit, h.unheld, fun i hi => by simpa using h.fading i hi⟩
  | cons j l ih =>
    have hfirst : e.Ending fun i => i = j ∨ i ∈ l ∨ due i :=
      ⟨h.limit, h.unheld, fun i hi => by simpa [or_assoc] using h.fading i hi⟩
    exact ih hfirst.turnOff

theorem steps_endSequence {σ : Type} (e : Engine σ) (s : Nat) : Steps e (e.endSequence s) :=
  foldl_relates .refl (fun _ _ _ => .trans) steps_turnOff _ e

/-- Slots are being emptied; those of `l` are still to come. -/
structure Clearing (l : List Nat) (e : Engine RecorderChip) : Prop where
  agree : e.PoolsAgree
  wide : e.module.widestSequence ≤ maxTracksPerSequence
  ending : e.Ending fun i => (e.track i).slot ∈ l

/-- The tracks of a slot all fade once its sequence is ended. -/
theorem Clearing.endSequence {s : Nat} {l : List Nat} {e : Engine RecorderChip}
    (h : Clearing (s :: l) e) (hs : (e.slot s).active = true) :
    Clearing l (e.endSequence s) := by
  refine ⟨h.agree.endSequence s, ?_, ?_⟩
  · rw [(releases_deed (.endSequence e s)).module]
    exact h.wide
  · have hstart : e.Ending fun i => i ∈ (e.slot s).trackList ∨ (e.track i).slot ∈ l := by
      refine ⟨h.ending.limit, h.ending.unheld, fun i hi => ?_⟩
      rcases h.ending.fading i hi with hdue | hfading
      · rcases List.mem_cons.mp hdue with hhome | hrest
        · left
          left
          rw [h.agree.trackList_eq h.wide hs, Slot.mem_trackIds]
          exact ⟨_, hhome ▸ (h.agree.home i hi).2.1⟩
        · exact .inl (.inr hrest)
      · exact .inr hfading
    have hended := hstart.foldl
    refine ⟨hended.limit, hended.unheld, fun i hi => ?_⟩
    rw [(steps_endSequence e s i).place.1]
    exact hended.fading i hi

/-- A slot that is not in use has no tracks. -/
theorem Clearing.skip {s : Nat} {l : List Nat} {e : Engine RecorderChip}
    (h : Clearing (s :: l) e) (hs : ¬ (e.slot s).active = true) : Clearing l e := by
  refine ⟨h.agree, h.wide, h.ending.limit, h.ending.unheld, fun i hi => ?_⟩
  rcases h.ending.fading i hi with hdue | hfading
  · rcases List.mem_cons.mp hdue with hhome | hrest
    · exact absurd (hhome ▸ (h.agree.home i hi).1) hs
    · exact .inl hrest
  · exact .inr hfading

/-- When everything has been stopped, the tracks still in the pool all fade. -/
theorem Settled.fading_stopAll {e : Engine RecorderChip} (h : e.Settled) {i : Nat}
    (hi : (e.stopAll.track i).isActive = true) : e.stopAll.Fading i := by
  have hstart : Clearing e.slotIds e :=
    ⟨h.form.agree, h.wide, h.manned.limit_le, h.unheld, fun i hi =>
      .inl (List.mem_range.mpr (lt_size_of_active (h.form.agree.home i hi).1))⟩
  have hend : Clearing [] e.stopAll := by
    refine foldl_keeps Clearing (fun s l e h => ?_) e.slotIds e hstart
    dsimp only
    rw [Bool.and_true]
    split
    · next hs => exact h.endSequence hs
    · next hs => exact h.skip hs
  rcases hend.ending.fading i hi with hdue | hfading
  · exact absurd hdue List.not_mem_nil
  · exact hfading

/-! ## The books while tracks are ended -/

theorem active_releaseVoices {σ : Type} (e : Engine σ) (i : Nat) :
    (e.releaseVoices i).voices.active = e.voices.active := by
  unfold releaseVoices
  split <;> rfl

theorem Manned.turnOff {σ : Type} {e : Engine σ} (h : e.Manned) (i : Nat) :
    (e.turnOff i).Manned := by
  refine h.of_owners (sameOwners_turnOff e i) ?_
  rw [turnOff_eq]
  split
  · rw [(sameSound_retireTrack e i).voices]
  · split
    · rw [(sameSound_retireTrack e i).voices]
    · rw [(sameSound_awaitVoices _ i).voices, active_releaseVoices]

theorem Manned.deed {σ : Type} [SoundChip σ] {e e' : Engine σ} (h : e.Manned)
    (hdeed : Deed e e') : e'.Manned := by
  cases hdeed with
  | tuned htuned => exact h.of_voices htuned.tracks_size htuned.voices
  | turnOff => exact h.turnOff _
  | endSequence s => exact foldl_keeps (fun _ e => e.Manned) (fun i _ _ he => he.turnOff i) _ e h
  | noteOff i note => exact h.of_owners (sameOwners_noteOff e i note) rfl
  | pauseTrack =>
    exact h.of_voices (sameSound_pauseTrack e _).tracks_size (sameSound_pauseTrack e _).voices
  | muteTrack i =>
    refine h.of_owners (sameOwners_muteTrack e i) ?_
    unfold muteTrack
    split
    · rfl
    · exact active_releaseVoices e i

/-! ## The tick -/

/-- All that is still in the pool waits, turned off, for its voices. -/
structure Fadeout (e : Engine RecorderChip) : Prop where
  form : e.WellFormed
  manned : e.Manned
  waits : ∀ i, (e.track i).Waits
  count : ∀ i, (e.track i).isActive = true →
    (e.track i).voicesActive = (e.voices.ownedBy i).length

namespace Fadeout

variable {e : Engine RecorderChip}

theorem of_same (h : e.Fadeout) {e' : Engine RecorderChip} (hform : e'.WellFormed)
    (htracks : e'.tracks = e.tracks) (hvoices : e'.voices = e.voices) : e'.Fadeout where
  form := hform
  manned := h.manned.of_voices (by rw [htracks]) hvoices
  waits i := by
    unfold Engine.track
    rw [htracks]
    exact h.waits i
  count i := by
    unfold Engine.track
    rw [htracks, hvoices]
    exact h.count i

theorem freeVoice (h : e.Fadeout) (v : Nat) : (e.freeVoice v).Fadeout where
  form := h.form.freeVoice v
  manned := h.manned.freeVoice v
  waits i := freeVoice_keeps (fun _ ht => ht.voiceFreed) (h.waits i) v
  count i hi := by
    have hcount := h.count i ((steps_freeVoice e v i).isActive hi)
    have hbalance := balance_freeVoice v (Nat.le_of_eq hcount.symm)
    omega

/-- Nothing runs in a state in which everything in the pool waits. -/
theorem not_isRunning (h : e.Fadeout) (i : Nat) : (e.track i).isRunning = false := by
  cases hrun : (e.track i).isRunning with
  | false => rfl
  | true =>
    obtain ⟨hactive, hgoes⟩ := Bool.and_eq_true_iff.mp hrun
    rw [h.form.rests i hactive (h.waits i hactive).2.1] at hgoes
    cases hgoes

/-- Without voices there is nothing to wait for, so nothing is left. -/
theorem empty (h : e.Fadeout) (hidle : ∀ v, (e.voice v).active = false) :
    (∀ i, (e.track i).isActive = false) ∧ (∀ s, (e.slot s).active = false) ∧
      e.voices.active = 0 ∧ e.tracksActive = 0 ∧ e.slotsActive = 0 := by
  have htrack : ∀ i, (e.track i).isActive = false := by
    intro i
    refine Bool.eq_false_iff.mpr fun hi => ?_
    have hnone : e.voices.ownedBy i = [] := by
      rw [List.eq_nil_iff_forall_not_mem]
      intro v hv
      have hown := Bool.and_eq_true_iff.mp (VoicePool.mem_select.mp hv).2
      exact Bool.false_ne_true ((hidle v).symm.trans hown.1)
    have hcount := h.count i hi
    rw [hnone] at hcount
    exact (h.waits i hi).1.counts hcount
  have hslot : ∀ s, (e.slot s).active = false := by
    intro s
    refine Bool.eq_false_iff.mpr fun hs => ?_
    -- a slot in use has an entry, and that is a track of the pool
    have hpos : 0 < (e.slot s).entries :=
      h.form.agree.entries s hs ▸ (h.form.agree.lively s hs).1
    obtain ⟨p, -, hp⟩ := List.countP_pos_iff.mp hpos
    obtain ⟨i, hi⟩ := Option.isSome_iff_exists.mp hp
    exact Bool.false_ne_true ((htrack i).symm.trans (h.form.agree.entry s p i hi).2.1)
  refine ⟨htrack, hslot, ?_, ?_, ?_⟩
  · rw [h.manned.active]
    exact List.countP_eq_zero.mpr fun v _ => Bool.eq_false_iff.mp (hidle v)
  · rw [h.form.agree.tracks]
    exact List.countP_eq_zero.mpr fun i _ => Bool.eq_false_iff.mp (htrack i)
  · rw [h.form.agree.slots]
    exact List.countP_eq_zero.mpr fun s _ => Bool.eq_false_iff.mp (hslot s)

end Fadeout

/-- All that is still in the pool waits for voices that the next flush silences. -/
structure Doused (e : Engine RecorderChip) : Prop extends Fadeout e where
  instant : e.chip.instantRelease = true
  pending : ∀ v, (e.voice v).active = true → e.pending v = true

theorem Doused.freeVoice {e : Engine RecorderChip} (h : e.Doused) (v : Nat) :
    (e.freeVoice v).Doused where
  toFadeout := h.toFadeout.freeVoice v
  instant := by
    rw [chip_freeVoice]
    exact h.instant
  pending w hw := by
    rw [active_freeVoice, Bool.and_eq_true] at hw
    rw [(sameDue_freeVoice e v).pending]
    exact h.pending w hw.2

theorem Doused.beforeTracks {e : Engine RecorderChip} (h : e.Doused) : e.beforeTracks.Doused := by
  have hsame := tuned_beforeTracks e
  have hpools := pools_beforeTracks e
  simp only [pools, Prod.mk.injEq] at hpools
  refine ⟨h.of_same (lasting_wellFormed.deed _ _ (.tuned hsame) h.form) hpools.2.1 hsame.voices,
    ?_, fun v hv => ?_⟩
  · exact (RecorderChip.sameKeys_of_unkeyed hsame.chip).instantRelease.trans h.instant
  · rw [hsame.voice] at hv
    rw [Engine.pending, hsame.toRelease, hsame.toMute]
    exact h.pending v hv

/-- A tick then frees every voice. -/
theorem Doused.tick {e : Engine RecorderChip} (h : e.Doused) :
    e.tick.Fadeout ∧ ∀ v, (e.tick.voice v).active = false := by
  have hflush : e.beforeFlush.Doused := by
    rw [beforeFlush, beforeUpkeep_of_not_isRunning h.not_isRunning]
    exact freeWhere_keeps (fun _ v hd => hd.freeVoice v) _ _ h.beforeTracks
  have hflushed : e.beforeFlush.flushReleases.Fadeout :=
    hflush.of_same (lasting_wellFormed.sound _ _ _ _ hflush.form) rfl rfl
  rw [tick_eq_flush]
  exact freeSilent_silences Fadeout (fun _ v hd => hd.freeVoice v) hflushed fun v hv =>
    status_flushReleases_of_pending hflush.instant (hflush.pending v hv)

/-- How ending tracks leaves the books. -/
structure Closes (e e' : Engine RecorderChip) : Prop where
  owners : SameOwners e e'
  releases : Releases e e'
  steps : Steps e e'
  manned : e'.Manned

theorem Closes.deed {e e' e'' : Engine RecorderChip} (h : Closes e e') (hdeed : Deed e' e'') :
    Closes e e'' where
  owners := h.owners.trans (sameOwners_deed hdeed)
  releases := h.releases.trans (releases_deed hdeed)
  steps := h.steps.trans (steps_deed hdeed)
  manned := h.manned.deed hdeed

/-- When everything has been stopped, all that is still in the pool waits for voices that
are to be keyed off. -/
theorem Settled.doused_stopAll {e : Engine RecorderChip} (h : e.Settled) : e.stopAll.Doused := by
  have hform : e.stopAll.WellFormed := lasting_wellFormed.perform (s := { engine := e })
    (.inl (show (Call.stopAll : Call RecorderChip).Plain from trivial)) h.form
  have hcloses : Closes e e.stopAll := (deeds_endWhere e fun _ => true).keeps
    (fun _ _ hdeed hd => hd.deed hdeed) ⟨.refl e, .refl e, .refl e, h.manned⟩
  have hin : ∀ i, (e.stopAll.track i).isActive = true → (e.track i).isActive = true :=
    fun i => (hcloses.steps i).isActive
  refine ⟨⟨hform, hcloses.manned, fun i hi => ?_, fun i hi => ?_⟩, ?_, fun v hv => ?_⟩
  · have hfading := h.fading_stopAll hi
    refine ⟨hfading.sounds, hfading.rests.1, ?_⟩
    rw [(hcloses.steps i).isHandled]
    exact h.unheld i (hin i hi)
  · have hdriver := (h.fading_stopAll hi).sounds.driver
    rw [hcloses.owners.driver] at hdriver
    rw [hcloses.owners.count, hcloses.owners.ownedBy]
    exact h.count i (hin i hi) hdriver
  · exact hcloses.releases.chip.instantRelease.trans h.instant
  · have howner := hform.voices.owner v hv
    exact (h.fading_stopAll howner.1).pending v (by simpa [Voice.ownedBy] using hv)

theorem poolSteps_of_not_isRunning {σ : Type} [SoundChip σ] {e : Engine σ}
    (h : ∀ i, (e.track i).isRunning = false) (l : List Nat) : poolSteps l e = [] := by
  induction l with
  | nil => rfl
  | cons i l ih =>
    unfold poolSteps
    rw [if_neg (by simp [h i]), ih]

/-- A tick in which no track runs executes no command. -/
theorem executions_of_not_isRunning {σ : Type} [SoundChip σ] {e : Engine σ}
    (h : ∀ i, (e.track i).isRunning = false) : e.executions = [] := by
  unfold executions
  split
  · rfl
  · refine poolSteps_of_not_isRunning (fun i => ?_) _
    rw [(tuned_beforeTracks e).isRunning]
    exact h i

/-! ## Runs that settle -/

/-- A note on whatever voice leaves the voices manned. -/
theorem Manned.strike {e : Engine RecorderChip} (h : e.Manned) (v : Nat) {i : Nat}
    (hi : i < e.tracks.size) (patchVoice : UInt16) (note velocity : UInt8) :
    (e.startVoice v i patchVoice note velocity).Manned := by
  by_cases hv : v < e.voices.limit
  · exact h.startVoice hv hi patchVoice note velocity
  · cases hpatch : e.module.patches.voice? patchVoice.toNat with
    | none =>
      rw [startVoice_of_none hpatch]
      exact h
    | some patch =>
      obtain ⟨voice, chip, reverbVoices, -, -, hstarted⟩ :=
        startVoice_of_some v i note velocity hpatch
      rw [hstarted]
      -- there is no such voice to occupy
      refine h.of_voices (by simp [modifyTrack]) ?_
      rw [VoicePool.occupy, if_neg hv]

theorem tracks_size_startTrack {σ : Type} (e : Engine σ) (slot sequence : Nat)
    (options : StartOptions) (i position : Nat) :
    (e.startTrack slot sequence options i position).tracks.size = e.tracks.size := by
  unfold startTrack
  split
  · rfl
  · simp [modifyTrack, modifySlot]

/-- Voices stay counted and owned by tracks of the pool. -/
theorem enduring_manned : Enduring fun e : Engine RecorderChip => e.Seated ∧ e.Manned where
  deed _ _ hdeed h := ⟨h.1.deed hdeed, h.2.deed hdeed⟩
  freeVoice _ v h := ⟨h.1.freeVoice v, h.2.freeVoice v⟩
  sound e chip toRelease toMute h :=
    ⟨enduring_seated.sound e chip toRelease toMute h.1, h.2.of_voices rfl rfl⟩
  startVoice e v i patchVoice note velocity hi h :=
    ⟨enduring_seated.startVoice e v i patchVoice note velocity hi h.1,
      h.2.strike v hi patchVoice note velocity⟩
  resumeTrack e i h :=
    ⟨enduring_seated.resumeTrack e i h.1, h.2.of_voices (sameSound_resumeTrack e i).tracks_size
      (sameSound_resumeTrack e i).voices⟩
  startSequence e sequence options h := by
    refine ⟨h.1.startSequence sequence options, ?_⟩
    exact @startSequence_keeps _ (fun e => e.Manned) (fun _ _ _ he => he.of_voices rfl rfl)
      (fun _ _ he => he.of_voices rfl rfl) _ (fun e slot sequence i position _ he =>
        he.of_voices (tracks_size_startTrack e slot sequence options i position)
          (voices_startTrack e slot sequence options i position)) sequence e h.2
  releaseHandle e slot h := by
    refine ⟨h.1.releaseHandle slot, ?_⟩
    refine @releaseHandle_keeps _ (fun e => e.Manned) (fun _ _ _ he => he.of_voices rfl rfl)
      (fun e i he => ?_) slot e h.2
    have hunheld : (e.modifyTrack i Track.unhandled).Manned :=
      he.of_voices (by simp [modifyTrack]) rfl
    exact hunheld.turnOff i

theorem manned_make {module : SoundModule} {chip : RecorderChip} {e : Engine RecorderChip}
    (hmake : Engine.make module chip = .ok e) : e.Manned where
  limit_le := by
    rw [(parts_make hmake).2.2.1]
    simp [VoicePool.ofLimit, VoicePool.limit]
  active := by
    have hidle : ∀ v, (e.voice v).active = false := fun v => by rw [voice_make hmake]
    rw [List.countP_eq_zero.mpr fun v _ => Bool.eq_false_iff.mp (hidle v),
      (parts_make hmake).2.2.1]
    rfl
  owner_lt v hv := by
    rw [voice_make hmake] at hv
    cases hv

end Engine

open Engine

/-- Every careful run that takes no handle, on a chip that silences voices at key-off,
ends in a settled state. -/
theorem settled_run {module : SoundModule} {e : Engine RecorderChip}
    (hmake : Engine.make module { instantRelease := true } = .ok e)
    {calls : List (Call RecorderChip)}
    (hcareful : Session.Allows (fun s call => s.Careful call ∧ call.takesHandle = false)
      { engine := e } calls)
    (hfair : Session.Allows Session.Fair { engine := e } calls) :
    (Session.run { engine := e } calls).engine.Settled := by
  have horder := (hcareful.throughout
    (fun s => s.engine.InOrder ∧ ∀ i, (s.engine.track i).isHandled = false)
    (fun s call h hcall => ⟨inOrder_perform s call h.1 hcall.1,
      unhandled_perform s call hcall.2 h.2⟩)
    ⟨inOrder_make hmake, fun i => by rw [track_make hmake]; rfl⟩).last
  have hkeys := (hfair.throughout (fun s => s.Sound module.patches true)
    (fun _ _ h hcall => h.perform hcall fun _ => .inl rfl)
    ⟨keysFollow_make hmake, nofun⟩).last
  have hmanned := (hfair.throughout (fun s => s.engine.Seated ∧ s.engine.Manned)
    (fun s call h _ => enduring_manned.perform (fun _ he _ _ hi => he.1.lt_size hi) s call h)
    ⟨seated_make hmake, manned_make hmake⟩).last
  exact {
    form := horder.1.wellFormed
    count := fun i _ _ => horder.1.owned.count i
    manned := hmanned.2
    unheld := fun i _ => horder.2 i
    wide := by
      rw [(module_run hmake calls).2]
      exact (accepted_make hmake).1.widestSequence_le
    instant := hkeys.keys.instant }

/-! ## The end of everything -/

/-- One tick after everything was stopped nothing is left: no voice in use, no track in
the pool, no slot, and no count of them; and the tick executes no command. -/
theorem stopAll_tick {e : Engine RecorderChip} (h : e.Settled) :
    (∀ v, (e.stopAll.tick.voice v).active = false) ∧
      (∀ i, (e.stopAll.tick.track i).isActive = false) ∧
      (∀ s, (e.stopAll.tick.slot s).active = false) ∧
      e.stopAll.tick.voices.active = 0 ∧ e.stopAll.tick.tracksActive = 0 ∧
      e.stopAll.tick.slotsActive = 0 ∧ e.stopAll.executions = [] := by
  have hdoused := h.doused_stopAll
  obtain ⟨htick, hidle⟩ := hdoused.tick
  obtain ⟨htracks, hslots, hvoices, htracksActive, hslotsActive⟩ := htick.empty hidle
  exact ⟨hidle, htracks, hslots, hvoices, htracksActive, hslotsActive,
    executions_of_not_isRunning hdoused.not_isRunning⟩

/-- The band plays its first sequence for five hundred parts and its second, which is then
paused, over and over; the third has just been stopped. -/
def medley : List (Call RecorderChip) :=
  [.start 0 { attrs := { mask := { timed := true }, playtime := 500 } },
    .start 1 { attrs := { mask := { looped := true } } }, .start 2 {}, .tick, .tick,
    .pause 1 false, .stop 2]

/-- The engine behind the medley. -/
def Engine.afterMedley (e : Engine RecorderChip) : Engine RecorderChip :=
  (Session.run { engine := e } medley).engine

/-- Five voices sound, two tracks run for a time, one is paused that is looped, and one
waits for its last voice: a tick after the stop all are gone. -/
theorem stopAll_tick_medley : ∃ e : Engine RecorderChip,
    Engine.make band {} = .ok e ∧ e.afterMedley.Settled ∧
      e.afterMedley.voices.active = 5 ∧ e.afterMedley.slotsActive = 3 ∧
      (List.range 4).map (fun i => (e.afterMedley.track i).flags) =
        [{ active := true, timed := true }, { active := true, timed := true },
          { active := true, stopped := true, looped := true },
          { active := true, stopped := true, off := true }] ∧
      (∀ v, (e.afterMedley.stopAll.tick.voice v).active = false) ∧
      (∀ i, (e.afterMedley.stopAll.tick.track i).isActive = false) ∧
      (∀ s, (e.afterMedley.stopAll.tick.slot s).active = false) ∧
      e.afterMedley.stopAll.executions = [] := by
  obtain ⟨e, hmake, hcareful, hvoices, hslots, hflags⟩ : ∃ e : Engine RecorderChip,
      Engine.make band {} = .ok e ∧
        Session.Allows (fun s call => s.Careful call ∧ call.takesHandle = false) { engine := e }
          medley ∧
        e.afterMedley.voices.active = 5 ∧ e.afterMedley.slotsActive = 3 ∧
        (List.range 4).map (fun i => (e.afterMedley.track i).flags) =
          [{ active := true, timed := true }, { active := true, timed := true },
            { active := true, stopped := true, looped := true },
            { active := true, stopped := true, off := true }] :=
    exists_make (by decide +kernel)
  have hsettled : e.afterMedley.Settled :=
    settled_run hmake hcareful ⟨trivial, trivial, trivial, trivial, trivial, trivial, trivial,
      trivial⟩
  obtain ⟨hidle, htracks, hempty, -, -, -, hnone⟩ := stopAll_tick hsettled
  exact ⟨e, hmake, hsettled, hvoices, hslots, hflags, hidle, htracks, hempty, hnone⟩

end SoundSequencer
