/-
SoundSequencer.Proofs.WellFormed — states in which all the books are right.

* `Engine.Accounted` says that every voice in use is owned by a track of a
  sequence that plays notes and counts it. A track may count more voices than
  it owns, and more than it may have.
* `Engine.WellFormed` says moreover that tracks and slots agree and that every
  track that is turned off is paused.
* `lasting_wellFormed`, `wellFormed_tick` and `WellFormed.startSequence` say
  that plain calls, ticks and sequences that start leave the books right.
-/
import SoundSequencer.Proofs.PoolRuns

namespace SoundSequencer

namespace Engine

variable {σ : Type}

/-! ## Voices and their owners -/

/-- Every voice in use is owned by a track of a sequence that plays notes, and every
track counts the voices that it owns. -/
structure Accounted (e : Engine σ) : Prop where
  owner : ∀ v, e.OwnerPlays v
  count : ∀ i, (e.voices.ownedBy i).length ≤ (e.track i).voicesActive

theorem VoicesOwned.accounted {e : Engine σ} (h : e.VoicesOwned) : e.Accounted :=
  ⟨h.owner, fun i => Nat.le_of_eq (h.count i).symm⟩

/-- The owner of a voice in use sounds. -/
theorem Accounted.sounds {e : Engine σ} (h : e.Accounted) {v : Nat}
    (hv : (e.voice v).active = true) : (e.track (e.voice v).track).Sounds := by
  obtain ⟨hactive, hdriver⟩ := h.owner v hv
  refine ⟨hactive, hdriver, ?_⟩
  have hmem : v ∈ e.voices.ownedBy (e.voice v).track := by
    refine VoicePool.mem_select.mpr ⟨lt_limit_of_active hv, ?_⟩
    simpa [Voice.ownedBy, Engine.voice] using hv
  have hpos := List.length_pos_of_mem hmem
  have hcount := h.count (e.voice v).track
  omega

theorem SameOwners.accounted {e e' : Engine σ} (h : SameOwners e e') (he : e.Accounted)
    (hactive : ∀ i, (e.track i).Sounds → (e'.track i).isActive = true) : e'.Accounted where
  owner v hv := by
    rw [h.active] at hv
    have hsounds := he.sounds hv
    rw [h.track, h.driver]
    exact ⟨hactive _ hsounds, hsounds.driver⟩
  count i := by
    rw [h.ownedBy, h.count]
    exact he.count i

theorem Accounted.deed [SoundChip σ] {e e' : Engine σ} (h : e.Accounted) (hdeed : Deed e e') :
    e'.Accounted :=
  (sameOwners_deed hdeed).accounted h fun _ hi => (sounds_deed hdeed hi).active

/-- The owner of a voice that is freed leaves the pool only if it counts no other, and
then it owns no other. -/
theorem Accounted.freeVoice {e : Engine σ} (h : e.Accounted) (v : Nat) :
    (e.freeVoice v).Accounted where
  owner w hw := by
    have hold := hw
    rw [active_freeVoice, Bool.and_eq_true, decide_eq_true_iff] at hold
    obtain ⟨hvw, hold⟩ := hold
    obtain ⟨hactive, hdriver⟩ := h.owner w hold
    rw [owner_freeVoice, track_freeVoice]
    split
    · next hown =>
      -- the owner of both voices counts both
      have hcount := h.count (e.voice w).track
      have hfreed := ownedBy_freeVoice e v (e.voice w).track
      have hmem : w ∈ (e.freeVoice v).voices.ownedBy (e.voice w).track := by
        refine VoicePool.mem_select.mpr ⟨lt_limit_of_active hw, ?_⟩
        simp only [Voice.ownedBy, Bool.and_eq_true, beq_iff_eq]
        exact ⟨hw, owner_freeVoice e v w⟩
      have hpos := List.length_pos_of_mem hmem
      rw [if_pos (by simp [Voice.ownedBy, hown.1, hown.2.1])] at hfreed
      have hstays : (e.track (e.voice w).track).voiceFreed =
          (e.track (e.voice w).track).withoutVoice := by
        refine if_neg fun hlast => ?_
        have hnone : (e.track (e.voice w).track).voicesActive - 1 = 0 := hlast.1
        omega
      rw [hstays]
      exact ⟨hactive, hdriver⟩
    · exact ⟨hactive, hdriver⟩
  count i := by
    have hcount := h.count i
    have hbalance := balance_freeVoice v hcount
    omega

/-- A track outside the sequences owns no voice. -/
theorem Accounted.silent {e : Engine σ} (h : e.Accounted) {i : Nat}
    (hi : (e.track i).isActive = false) : e.voices.ownedBy i = [] := by
  rw [List.eq_nil_iff_forall_not_mem]
  intro v hv
  have hown := (VoicePool.mem_select.mp hv).2
  simp only [Voice.ownedBy, Bool.and_eq_true, beq_iff_eq] at hown
  have hactive := (h.owner v hown.1).1
  rw [show (e.voice v).track = i from hown.2, hi] at hactive
  cases hactive

theorem Accounted.startTrack {e : Engine σ} (h : e.Accounted) {i : Nat}
    (hi : (e.track i).isActive = false) (slot sequence : Nat) (options : StartOptions)
    (position : Nat) : (e.startTrack slot sequence options i position).Accounted := by
  obtain ⟨t, -, -, -, -, -, -, -, -, htrack⟩ :=
    track_startTrack e slot sequence options i position
  have hvoices := voices_startTrack e slot sequence options i position
  constructor
  case owner =>
    intro v hv
    have hread : (e.startTrack slot sequence options i position).voice v = e.voice v := by
      unfold Engine.voice; rw [hvoices]
    rw [hread] at hv ⊢
    have howner := h.owner v hv
    have hne : ¬ i = (e.voice v).track := by
      rintro rfl
      rw [hi] at howner
      cases howner.1
    rw [htrack, if_neg fun hp => hne hp.2.1]
    exact howner
  case count =>
    intro j
    rw [hvoices]
    by_cases hij : i = j
    · subst hij
      rw [h.silent hi]
      exact Nat.zero_le _
    · rw [htrack, if_neg fun hp => hij hp.2.1]
      exact h.count j

theorem Accounted.startSequence {e : Engine σ} (h : e.Accounted) (sequence : Nat)
    (options : StartOptions) : (e.startSequence sequence options).2.Accounted :=
  startSequence_keeps (fun _ _ _ he => ⟨he.owner, he.count⟩) (fun _ _ he => ⟨he.owner, he.count⟩)
    (fun _ slot sequence _ position hi he => he.startTrack hi slot sequence options position)
    sequence h

section Notes

variable [SoundChip σ]

/-- A note that starts on an idle voice for a track that may play is owned by it. -/
theorem Accounted.startVoice {e : Engine σ} (h : e.Accounted) {v i : Nat}
    (hv : v < e.voices.limit) (hidle : (e.voice v).active = false)
    (hi : (e.track i).MayPlay) (patchVoice : UInt16) (note velocity : UInt8) :
    (e.startVoice v i patchVoice note velocity).Accounted where
  owner w hw := by
    cases hpatch : e.module.patches.voice? patchVoice.toNat with
    | none =>
      rw [startVoice_of_none hpatch] at hw ⊢
      exact h.owner w hw
    | some patch =>
      obtain ⟨voice, htrack, -, -, hread⟩ := voice_startVoice i note velocity hv hpatch
      rw [hread] at hw ⊢
      by_cases hvw : v = w
      · rw [if_pos hvw, htrack]
        have hstarted := startVoice_keeps Track.MayPlay.withVoice hi v i patchVoice note velocity
        exact ⟨hstarted.active, hstarted.driver⟩
      · rw [if_neg hvw] at hw ⊢
        rw [track_startVoice]
        split
        · exact h.owner w hw
        · exact h.owner w hw
  count j := by
    have hcount := h.count j
    have hbalance := balance_startVoice patchVoice note velocity hv hidle
      (lt_size_of_isActive hi.active) j
    omega

theorem Accounted.playNote {e : Engine σ} (h : e.Accounted) {i : Nat}
    (hi : (e.track i).MayPlay) (patchVoice : UInt16) (note velocity : UInt8) :
    (e.playNote i patchVoice note velocity).Accounted := by
  rcases playNote_eq e i patchVoice note velocity with heq | ⟨-, v, hv, heq⟩
  · rw [heq]
    exact h
  · have hplays := freeVoice_keeps Track.MayPlay.voiceFreed hi v
    rw [heq]
    refine (h.freeVoice v).startVoice (by simpa using hv) ?_ hplays patchVoice note velocity
    simp [active_freeVoice]

end Notes

/-! ## All books -/

/-- Tracks and slots agree, voices are owned and counted, and tracks that are turned off
are paused. -/
structure WellFormed (e : Engine σ) : Prop where
  agree : e.PoolsAgree
  voices : e.Accounted
  rests : ∀ i, (e.track i).OffRests

theorem InOrder.wellFormed {e : Engine σ} (h : e.InOrder) : e.WellFormed :=
  ⟨h.agree, h.owned.accounted, h.rests⟩

/-- A voice that is freed ends at most its owner, which is in the pool. -/
theorem WellFormed.freeVoice {e : Engine σ} (h : e.WellFormed) (v : Nat) :
    (e.freeVoice v).WellFormed where
  agree := h.agree.freeVoice h.voices.owner v
  voices := h.voices.freeVoice v
  rests i := freeVoice_keeps (fun t ht => Track.Step.offRests (.voiceFreed t) ht) (h.rests i) v

section Runs

variable [SoundChip σ]

theorem WellFormed.playNote {e : Engine σ} (h : e.WellFormed) {i : Nat}
    (hi : (e.track i).MayPlay) (patchVoice : UInt16) (note velocity : UInt8) :
    (e.playNote i patchVoice note velocity).WellFormed where
  agree := h.agree.playNote h.voices.owner i patchVoice note velocity
  voices := h.voices.playNote hi patchVoice note velocity
  rests := (steps_playNote e i patchVoice note velocity).keeps
    (fun _ _ hstep => hstep.offRests) h.rests

theorem WellFormed.noteOn {e : Engine σ} (h : e.WellFormed) {i : Nat}
    (hi : (e.track i).MayPlay) (key velocity : UInt8) : (e.noteOn i key velocity).WellFormed := by
  unfold Engine.noteOn
  split
  · exact h
  · next patch note _ =>
    have hkeys := foldl_keeps
      (f := fun e index => e.playNote i (UInt16.ofNat index) note velocity)
      (fun _ e => e.WellFormed ∧ (e.track i).MayPlay)
      (fun index _ e he => by
        obtain ⟨hform, hplays⟩ := he
        exact ⟨hform.playNote hplays _ note velocity,
          playNote_keeps Track.MayPlay.voiceFreed Track.MayPlay.withVoice hplays i _ note velocity⟩)
      (soundingVoices e.module.patches patch note) e ⟨h, hi⟩
    exact hkeys.1

/-- A sequence that starts leaves the books right, and so does one that is refused. -/
theorem WellFormed.startSequence {e : Engine σ} (h : e.WellFormed) (sequence : Nat)
    (options : StartOptions) : (e.startSequence sequence options).2.WellFormed where
  agree := h.agree.startSequence sequence options
  voices := h.voices.startSequence sequence options
  rests := offRests_perform { engine := e } (.start sequence options) Bool.false_ne_true h.rests

/-- Neither a deed nor a freed voice nor a change of the chip puts the books wrong. -/
theorem lasting_wellFormed : Lasting fun e : Engine σ => e.WellFormed where
  deed _ _ hdeed h :=
    ⟨h.agree.deed hdeed, h.voices.deed hdeed,
      (steps_deed hdeed).keeps (fun _ _ hstep => hstep.offRests) h.rests⟩
  freeVoice _ v h := h.freeVoice v
  sound e _ _ _ h :=
    ⟨SamePlaces.agree (e := e) (samePlaces_of_pools rfl rfl rfl rfl rfl) h.agree,
      ⟨h.voices.owner, h.voices.count⟩, h.rests⟩

/-- A key that a running track plays leaves the books right. -/
theorem WellFormed.noteOn_of_isRunning {e : Engine σ} (h : e.WellFormed) {i : Nat}
    (hrun : (e.track i).isRunning = true) (hdriver : (e.track i).driver = .voices)
    (key velocity : UInt8) : (e.noteOn i key velocity).WellFormed :=
  h.noteOn (mayPlay_of_isRunning (h.rests i) hrun hdriver) key velocity

theorem WellFormed.moves {e e' : Engine σ} (h : e.WellFormed) (hmoves : Moves e e') :
    e'.WellFormed := by
  refine hmoves.keeps (fun e e' hmove h => ?_) h
  cases hmove with
  | deed hdeed => exact lasting_wellFormed.deed e e' hdeed h
  | noteOn key velocity hrun hdriver => exact h.noteOn_of_isRunning hrun hdriver key velocity

theorem wellFormed_tick {e : Engine σ} (h : e.WellFormed) : e.tick.WellFormed :=
  lasting_wellFormed.tick
    (fun _ _ key velocity hrun hdriver h => h.noteOn_of_isRunning hrun hdriver key velocity) h

end Runs

end Engine

/-! ## Runs -/

section Calls

variable {σ : Type} [SoundChip σ]

/-- Whether a call is a tick, or starts, stops, pauses or changes sequences. -/
def Call.Conducts : Call σ → Prop
  | .tick | .start .. | .stop _ | .stopAll | .stopTagged _ | .pause .. | .pauseAll ..
  | .updateTagged .. => True
  | _ => False

open Engine

theorem wellFormed_perform (s : Session σ) {call : Call σ}
    (hcall : call.Conducts) (hform : s.engine.WellFormed) :
    (s.perform call).engine.WellFormed := by
  cases call with
  | tick =>
    rw [Session.engine_tick]
    exact wellFormed_tick hform
  | start sequence options => exact hform.startSequence sequence options
  | stop | stopAll | stopTagged | pause | pauseAll | updateTagged =>
    exact lasting_wellFormed.perform (.inl trivial) hform
  | _ => exact hcall.elim

theorem wellFormed_make {module : SoundModule} {chip : σ} {e : Engine σ}
    (hmake : Engine.make module chip = .ok e) : e.WellFormed :=
  ⟨poolsAgree_make hmake, (voicesOwned_make hmake).accounted, offRests_make hmake⟩

/-- All books are right throughout every run of such calls on a new engine. -/
theorem wellFormed_throughout {module : SoundModule} {chip : σ} {e : Engine σ}
    (hmake : Engine.make module chip = .ok e) {calls : List (Call σ)}
    (hcalls : Session.Allows (fun _ call => call.Conducts) { engine := e } calls) :
    Session.Throughout (fun s => s.engine.WellFormed) { engine := e } calls :=
  hcalls.throughout _ (fun s _ h hcall => wellFormed_perform s hcall h) (wellFormed_make hmake)

end Calls

end SoundSequencer
