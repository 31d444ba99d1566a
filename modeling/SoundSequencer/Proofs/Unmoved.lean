/-
SoundSequencer.Proofs.Unmoved — what moves no track.

* `Track.spot` is where a track stands in its stream and where it will come
  back to, `Track.timing` how much time has passed for it and how long it waits.
  `Track.Paced` says that the time of a track goes on as before, but for its tempo.
* `Engine.Unmoved` says that all tracks stay where they are and paced, and that none
  gets into a sequence.
* Only time, commands for the control flow and the start of a sequence move tracks:
  `unmoved_turnOff`, `unmoved_noteOn`, `unmoved_driverCommand` and
  `unmoved_perform` say so of all else.
-/
import SoundSequencer.Proofs.Ownership

namespace SoundSequencer

/-- Where a track stands in which stream, and where it will come back to. -/
def Track.spot (t : Track) := (t.sequence, t.position, t.pc, t.returns)

/-- How much time has passed for a track, and how long it waits for its next command. -/
def Track.timing (t : Track) := (t.total, t.acc, t.delta)

theorem Track.timing_inj {t t' : Track} :
    t'.timing = t.timing ↔ t'.total = t.total ∧ t'.acc = t.acc ∧ t'.delta = t.delta := by
  simp [timing]

/-- Where and when a track is. -/
def Track.bearing (t : Track) := (t.spot, t.timing)

/-- Whether a track advances per tick by what its tempo and its resolution ask for. -/
def Track.InTempo (t : Track) : Prop := t.ppi = partsPerInterrupt ticksPerSecond t.ppq t.qpm

/-- The track `t'` counts the same parts as `t` and has the same fraction of one to its credit.
Its tempo may be another, but it is in tempo if `t` is. -/
structure Track.Paced (t t' : Track) : Prop where
  ppq : t'.ppq = t.ppq
  frac : t'.frac = t.frac
  inTempo : t.InTempo → t'.InTempo

namespace Track

theorem Paced.refl (t : Track) : t.Paced t := ⟨rfl, rfl, id⟩

theorem Paced.trans {a b c : Track} (hab : a.Paced b) (hbc : b.Paced c) : a.Paced c :=
  ⟨hbc.ppq.trans hab.ppq, hbc.frac.trans hab.frac, hbc.inTempo ∘ hab.inTempo⟩

theorem paced_setTempo (t : Track) (qpm : UInt16) : t.Paced (t.setTempo qpm) :=
  ⟨rfl, rfl, fun _ => rfl⟩

theorem paced_override (t : Track) (attrs : PlayAttrs) : t.Paced (t.override attrs) := by
  unfold override
  dsimp only
  -- with an end or without, a new tempo comes with its advance
  split <;> split
  · exact ⟨rfl, rfl, fun _ => rfl⟩
  · exact ⟨rfl, rfl, id⟩
  · exact ⟨rfl, rfl, fun _ => rfl⟩
  · exact ⟨rfl, rfl, id⟩

end Track

namespace Engine

variable {σ : Type}

/-- Every track stands where it stood, waits as long as it did and goes on as paced, and none has
got into a sequence. -/
structure Unmoved (e e' : Engine σ) : Prop where
  module : e'.module = e.module
  bearing : ∀ i, (e'.track i).bearing = (e.track i).bearing
  paced : ∀ i, (e.track i).Paced (e'.track i)
  active : ∀ i, (e'.track i).isActive = true → (e.track i).isActive = true

namespace Unmoved

theorem refl (e : Engine σ) : Unmoved e e := ⟨rfl, fun _ => rfl, fun _ => .refl _, fun _ h => h⟩

theorem trans {a b c : Engine σ} (hab : Unmoved a b) (hbc : Unmoved b c) : Unmoved a c :=
  ⟨hbc.module.trans hab.module, fun i => (hbc.bearing i).trans (hab.bearing i),
    fun i => (hab.paced i).trans (hbc.paced i), fun i h => hab.active i (hbc.active i h)⟩

theorem spot {e e' : Engine σ} (h : Unmoved e e') (i : Nat) :
    (e'.track i).spot = (e.track i).spot := congrArg Prod.fst (h.bearing i)

theorem timing {e e' : Engine σ} (h : Unmoved e e') (i : Nat) :
    (e'.track i).timing = (e.track i).timing := congrArg Prod.snd (h.bearing i)

theorem of_tracks {e e' : Engine σ} (hmodule : e'.module = e.module)
    (htracks : e'.tracks = e.tracks) : Unmoved e e' := by
  have htrack : ∀ i, e'.track i = e.track i := fun i => by unfold Engine.track; rw [htracks]
  refine ⟨hmodule, fun i => by rw [htrack], fun i => ?_, fun i h => by rwa [htrack] at h⟩
  rw [htrack]
  exact .refl _

theorem of_pools {e e' : Engine σ} (hpools : e'.pools = e.pools) : Unmoved e e' := by
  simp only [pools, Prod.mk.injEq] at hpools
  exact of_tracks hpools.1 hpools.2.1

/-- Some tracks change, but not in where and when they are. -/
theorem of_ite {e e' : Engine σ} {p : Nat → Prop} [DecidablePred p] {f : Track → Track}
    (hmodule : e'.module = e.module)
    (htrack : ∀ j, e'.track j = if p j then f (e.track j) else e.track j)
    (hbearing : ∀ t, (f t).bearing = t.bearing) (hpaced : ∀ t, Track.Paced t (f t))
    (hactive : ∀ t, (f t).isActive = true → t.isActive = true) :
    Unmoved e e' := by
  refine ⟨hmodule, fun j => ?_, fun j => ?_, fun j hj => ?_⟩
  · rw [htrack]
    split
    · exact hbearing _
    · rfl
  · rw [htrack]
    split
    · exact hpaced _
    · exact .refl _
  · rw [htrack] at hj
    split at hj
    · exact hactive _ hj
    · exact hj

end Unmoved

theorem unmoved_foldl {α : Type} {f : Engine σ → α → Engine σ} (hf : ∀ e a, Unmoved e (f e a))
    (l : List α) (e : Engine σ) : Unmoved e (l.foldl f e) :=
  foldl_relates .refl (fun _ _ _ => .trans) hf l e

theorem unmoved_modifyTrack (e : Engine σ) (i : Nat) {f : Track → Track}
    (hbearing : ∀ t, (f t).bearing = t.bearing) (hpaced : ∀ t, Track.Paced t (f t))
    (hactive : ∀ t, (f t).isActive = true → t.isActive = true) :
    Unmoved e (e.modifyTrack i f) :=
  .of_ite rfl (track_modifyTrack e i · f) hbearing hpaced hactive

theorem unmoved_modifySlot (e : Engine σ) (s : Nat) (f : Slot → Slot) :
    Unmoved e (e.modifySlot s f) := .of_tracks rfl rfl

/-! ## Pausing and ending -/

theorem unmoved_pauseTrack (e : Engine σ) (i : Nat) : Unmoved e (e.pauseTrack i) :=
  .of_ite (sameSound_pauseTrack e i).module (track_pauseTrack e i) (fun _ => rfl)
    (fun _ => ⟨rfl, rfl, id⟩) fun _ h => h

theorem unmoved_resumeTrack (e : Engine σ) (i : Nat) : Unmoved e (e.resumeTrack i) :=
  .of_ite (sameSound_resumeTrack e i).module (track_resumeTrack e i) (fun _ => rfl)
    (fun _ => ⟨rfl, rfl, id⟩) fun _ h => h

theorem isActive_of_retired {t : Track} (h : t.retired.isActive = true) : t.isActive = true :=
  (Bool.and_eq_true_iff.mp h).1

theorem unmoved_retireTrack (e : Engine σ) (i : Nat) : Unmoved e (e.retireTrack i) :=
  .of_ite (sameSound_retireTrack e i).module (track_retireTrack e i) (fun _ => rfl)
    (fun _ => ⟨rfl, rfl, id⟩) fun _ => isActive_of_retired

theorem unmoved_awaitVoices (e : Engine σ) (i : Nat) : Unmoved e (e.awaitVoices i) :=
  .of_ite (sameSound_awaitVoices e i).module (track_awaitVoices e i) (fun _ => rfl)
    (fun _ => ⟨rfl, rfl, id⟩) fun _ h => h

theorem unmoved_releaseVoices (e : Engine σ) (i : Nat) : Unmoved e (e.releaseVoices i) := by
  unfold releaseVoices
  split <;> exact .of_tracks rfl rfl

theorem unmoved_muteTrack (e : Engine σ) (i : Nat) : Unmoved e (e.muteTrack i) := by
  unfold muteTrack
  split
  · exact .refl e
  · exact unmoved_releaseVoices e i

theorem unmoved_turnOff (e : Engine σ) (i : Nat) : Unmoved e (e.turnOff i) := by
  rw [turnOff_eq]
  split
  · exact unmoved_retireTrack e i
  · split
    · exact unmoved_retireTrack e i
    · exact (unmoved_releaseVoices e i).trans (unmoved_awaitVoices _ i)

theorem unmoved_endSequence (e : Engine σ) (s : Nat) : Unmoved e (e.endSequence s) :=
  unmoved_foldl unmoved_turnOff _ e

theorem unmoved_freeVoice (e : Engine σ) (v : Nat) : Unmoved e (e.freeVoice v) := by
  have hdropped : Unmoved e (e.dropVoice v) := by
    have hvacated : Unmoved e { e with voices := e.voices.vacate v } := .of_tracks rfl rfl
    exact hvacated.trans
      (unmoved_modifyTrack (f := Track.withoutVoice) _ _ (fun _ => rfl)
        (fun _ => ⟨rfl, rfl, id⟩) fun _ h => h)
  rw [freeVoice_eq]
  split
  · split
    · exact hdropped.trans (unmoved_retireTrack _ _)
    · exact hdropped
  · exact .refl e

section Chip

variable [SoundChip σ]

/-! ## Notes and controls -/

theorem unmoved_startVoice (e : Engine σ) (v i : Nat) (patchVoice : UInt16)
    (note velocity : UInt8) : Unmoved e (e.startVoice v i patchVoice note velocity) := by
  cases hpatch : e.module.patches.voice? patchVoice.toNat with
  | none =>
    rw [startVoice_of_none hpatch]
    exact .refl e
  | some patch =>
    obtain ⟨_, _, _, -, -, hstarted⟩ := startVoice_of_some v i note velocity hpatch
    rw [hstarted]
    have hvoice := unmoved_modifyTrack (f := Track.withVoice) e i (fun _ => rfl)
      (fun _ => ⟨rfl, rfl, id⟩) fun _ h => h
    exact hvoice.trans (.of_tracks rfl rfl)

theorem unmoved_playNote (e : Engine σ) (i : Nat) (patchVoice : UInt16) (note velocity : UInt8) :
    Unmoved e (e.playNote i patchVoice note velocity) := by
  rcases playNote_eq e i patchVoice note velocity with heq | ⟨-, v, -, heq⟩
  · rw [heq]
    exact .refl e
  · rw [heq]
    exact (unmoved_freeVoice e v).trans (unmoved_startVoice _ v i patchVoice note velocity)

theorem unmoved_noteOn (e : Engine σ) (i : Nat) (key velocity : UInt8) :
    Unmoved e (e.noteOn i key velocity) := by
  unfold noteOn
  split
  · exact .refl e
  · exact unmoved_foldl (fun e index => unmoved_playNote e i _ _ velocity) _ e

theorem unmoved_writeOwned (e : Engine σ) (i : Nat) (mask : RegisterMask)
    (registers : Voice → PatchVoice → VoiceRegisters) :
    Unmoved e (e.writeOwned i mask registers) := by
  unfold writeOwned
  split <;> exact .of_tracks rfl rfl

theorem unmoved_pushLevels (e : Engine σ) (i : Nat) : Unmoved e (e.pushLevels i) :=
  unmoved_writeOwned e i _ _

/-- A command of the driver moves no track. -/
theorem unmoved_driverCommand (e : Engine σ) (i : Nat) (c : Command) :
    Unmoved e (e.driverCommand i c) := by
  unfold driverCommand
  split
  · refine unmoved_modifyTrack e i (fun t => ?_) (fun t => ?_) fun t h => ?_
    · unfold Track.silentCommand
      split <;> rfl
    · unfold Track.silentCommand
      split <;> exact ⟨rfl, rfl, id⟩
    · unfold Track.silentCommand at h
      split at h <;> exact h
  · unfold voiceCommand
    split
    · exact unmoved_modifyTrack e i (fun _ => rfl) (fun _ => ⟨rfl, rfl, id⟩) fun _ h => h
    · unfold bendPitch
      split
      · exact .refl e
      · have hpitch := unmoved_modifyTrack e i (f := fun t => { t with pitch := c.signedWord 1 })
          (fun _ => rfl) (fun _ => ⟨rfl, rfl, id⟩) fun _ h => h
        exact hpitch.trans (unmoved_writeOwned _ i _ _)
    · have hvolume := unmoved_modifyTrack e i (f := fun t => { t with volume := c.byte 1 })
        (fun _ => rfl) (fun _ => ⟨rfl, rfl, id⟩) fun _ h => h
      exact hvolume.trans (unmoved_pushLevels _ i)
    · have hpan := unmoved_modifyTrack e i (f := fun t => { t with pan := c.byte 1 })
        (fun _ => rfl) (fun _ => ⟨rfl, rfl, id⟩) fun _ h => h
      unfold setTrackPan
      dsimp only
      split
      · exact hpan
      · exact hpan.trans (unmoved_pushLevels _ i)
    · exact unmoved_noteOn e i _ _
    · exact .of_tracks rfl rfl
    · exact .refl e

/-! ## Calls -/

omit [SoundChip σ] in
theorem unmoved_forTracksWhere (e : Engine σ) (q : Slot → Bool) {f : Engine σ → Nat → Engine σ}
    (hf : ∀ e i, Unmoved e (f e i)) : Unmoved e (e.forTracksWhere q f) := by
  refine unmoved_foldl (fun e s => ?_) _ e
  split
  · exact unmoved_foldl hf _ e
  · exact .refl e

theorem unmoved_updateTrack (e : Engine σ) (i : Nat) (attrs : PlayAttrs) :
    Unmoved e (e.updateTrack i attrs) := by
  unfold updateTrack
  extract_lets mask panned levelled bent
  have hpanned : Unmoved e panned := by
    unfold panned
    split
    · exact unmoved_modifyTrack e i (fun _ => rfl) (fun _ => ⟨rfl, rfl, id⟩) fun _ h => h
    · exact .refl e
  have hlevelled : Unmoved panned levelled := by
    unfold levelled
    split
    · exact unmoved_driverCommand _ i _
    · split
      · exact unmoved_driverCommand _ i _
      · exact .refl _
  have hbent : Unmoved levelled bent := by
    unfold bent
    split
    · exact unmoved_driverCommand _ i _
    · exact .refl _
  have hset : Unmoved bent (bent.modifyTrack i (·.override attrs)) := by
    refine unmoved_modifyTrack bent i (fun t => ?_) (·.paced_override attrs) fun t h => ?_
    · unfold Track.override
      dsimp only
      split <;> split <;> rfl
    · unfold Track.override at h
      dsimp only at h
      split at h <;> split at h <;> exact h
  exact (hpanned.trans (hlevelled.trans hbent)).trans hset

omit [SoundChip σ] in
theorem unmoved_pauseAll (e : Engine σ) (mute : Bool) (saved : List SavedNote) :
    Unmoved e (e.pauseAll mute saved).2 := by
  refine foldl_relates (r := fun p q => Unmoved p.2 q.2) (fun p => .refl p.2)
    (fun _ _ _ => .trans) (fun p s => ?_) _ (saved, e)
  obtain ⟨saved, e⟩ := p
  dsimp only
  split
  · refine foldl_relates (r := fun p q => Unmoved p.2 q.2) (fun p => .refl p.2)
      (fun _ _ _ => .trans) (fun p i => ?_) _ (saved, e)
    split
    · exact (unmoved_muteTrack p.2 i).trans (unmoved_pauseTrack _ i)
    · exact unmoved_pauseTrack p.2 i
  · exact .refl e

theorem unmoved_restartAll (e : Engine σ) (saved : List SavedNote) :
    Unmoved e (e.restartAll saved) := by
  refine unmoved_foldl (fun e s => ?_) _ e
  dsimp only
  split
  · refine unmoved_foldl (fun e i => ?_) _ e
    exact (unmoved_resumeTrack e i).trans
      (unmoved_foldl (fun e n => unmoved_playNote e i _ _ _) _ _)
  · exact .refl e

omit [SoundChip σ] in
theorem unmoved_releaseHandle (e : Engine σ) (slot : Nat) : Unmoved e (e.releaseHandle slot) := by
  unfold releaseHandle
  split
  · refine (unmoved_modifySlot e slot _).trans (unmoved_foldl (fun e i => ?_) _ _)
    have hreleased := unmoved_modifyTrack (f := Track.unhandled) e i (fun _ => rfl)
      (fun _ => ⟨rfl, rfl, id⟩) fun _ h => h
    exact hreleased.trans (unmoved_turnOff _ i)
  · exact .refl e

theorem unmoved_setVolumeOf (e : Engine σ) (kind : MasterKind) (volume : UInt8) :
    Unmoved e (e.setVolumeOf kind volume) := by
  cases kind with
  | effects => exact .of_tracks rfl rfl
  | music =>
    have hset : Unmoved e { e with musicVolume := volume } := .of_tracks rfl rfl
    refine hset.trans (unmoved_foldl (fun e i => ?_) _ _)
    dsimp only
    split
    · exact unmoved_driverCommand e i _
    · exact .refl e

end Chip

end Engine

/-- Whether a call can move tracks: a tick, or one that starts a sequence. -/
def Call.Drives {σ : Type} : Call σ → Prop
  | .tick | .start .. => True
  | _ => False

open Engine in
/-- Only ticks and starts move tracks. -/
theorem unmoved_perform {σ : Type} [SoundChip σ] (s : Session σ) {call : Call σ}
    (h : ¬ call.Drives) : Unmoved s.engine (s.perform call).engine := by
  cases call with
  | tick => exact absurd trivial h
  | start => exact absurd trivial h
  | releaseHandle slot => exact unmoved_releaseHandle s.engine slot
  | stop sequence => exact unmoved_forTracksWhere s.engine (·.sequence == sequence) unmoved_turnOff
  | stopAll => exact unmoved_forTracksWhere s.engine (fun _ => true) unmoved_turnOff
  | stopTagged tag => exact unmoved_forTracksWhere s.engine (·.tag == tag) unmoved_turnOff
  | pause sequence mute =>
    refine unmoved_forTracksWhere s.engine (·.sequence == sequence)
      (f := fun e i => if mute then (e.pauseTrack i).muteTrack i else e.pauseTrack i)
      fun e i => ?_
    split
    · exact (unmoved_pauseTrack e i).trans (unmoved_muteTrack _ i)
    · exact unmoved_pauseTrack e i
  | pauseAll mute saved => exact unmoved_pauseAll s.engine mute saved
  | restart sequence =>
    exact unmoved_forTracksWhere s.engine (·.sequence == sequence) unmoved_resumeTrack
  | restartAll saved => exact unmoved_restartAll s.engine saved
  | updateTagged tag attrs =>
    unfold Session.perform Engine.updateTagged
    dsimp only
    split
    · exact .refl s.engine
    · exact unmoved_forTracksWhere s.engine (·.tag == tag) fun e i => unmoved_updateTrack e i attrs
  | setVolumeOf kind volume => exact unmoved_setVolumeOf s.engine kind volume
  | listen kind =>
    unfold Session.perform Engine.listen
    dsimp only
    cases s.engine.listeners.findIdx? Option.isNone with
    | none => exact .refl s.engine
    | some place => exact .of_tracks rfl rfl
  | _ => exact .of_tracks rfl rfl

end SoundSequencer
