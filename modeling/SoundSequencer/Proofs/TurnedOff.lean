/-
SoundSequencer.Proofs.TurnedOff — tracks that are turned off and wait for
their last voices.

* `Track.OffRests` says of such a track that it is paused, `Track.OffSounds`
  that it has a voice, `Track.NotOff` that there is none such.
* `offStays_throughout_iff` says in which runs every track that is turned off
  stays paused and has a voice to wait for.
* `Session.Patient` is a condition on the calls of a run that is enough as
  long as no handle is taken.
-/
import SoundSequencer.Chip.Recorder
import SoundSequencer.Proofs.Tracks

namespace SoundSequencer

namespace Track

/-! ## A track that waits -/

/-- A track that does not wait, turned off, for its last voice. -/
def NotOff (t : Track) : Prop := t.isActive = true → t.flags.off = false

instance (t : Track) : Decidable t.NotOff := inferInstanceAs (Decidable (_ → _))

theorem NotOff.voiceFreed (t : Track) (h : t.NotOff) : t.voiceFreed.NotOff := by
  unfold Track.voiceFreed
  split
  · next hlast =>
    intro hactive
    simp only [isActive, retired, Bool.and_eq_true] at hactive
    exact h hactive.1
  · exact h

theorem NotOff.withVoice (t : Track) (h : t.NotOff) : t.withVoice.NotOff := h

/-- A track that is turned off, and waits in the pool for its last voice, is
paused. -/
def OffRests (t : Track) : Prop :=
  t.isActive = true → t.flags.off = true → t.isStopped = true

/-- A track that is turned off, and waits in the pool for its last voice, has a
voice. One that a handle holds need not. -/
def OffSounds (t : Track) : Prop :=
  t.isActive = true → t.flags.off = true → t.isHandled = false → 0 < t.voicesActive

/-- A retired track stays in the pool only if a handle holds it. -/
theorem isHandled_of_retired {t : Track} (h : t.retired.isActive = true) :
    t.isHandled = true := by
  simp only [isActive, retired, Bool.and_eq_true] at h
  exact h.2

theorem Step.isHandled {t t' : Track} (h : Step t t') : t'.isHandled = t.isHandled := by
  cases h with
  | tuned h => exact (congrArg Track.isHandled h :)
  | voiceFreed =>
    unfold Track.voiceFreed
    split <;> rfl
  | _ => rfl

theorem Steps.isHandled {t t' : Track} (h : Steps t t') : t'.isHandled = t.isHandled := by
  induction h with
  | refl => rfl
  | tail _ hlast ih => rw [hlast.isHandled, ih]

theorem Step.offRests {t t' : Track} (h : Step t t') (ht : t.OffRests) : t'.OffRests := by
  cases h with
  | tuned h =>
    have hactive : t'.isActive = t.isActive := (congrArg Track.isActive h :)
    have hoff : t'.flags.off = t.flags.off := (congrArg (·.flags.off) h :)
    have hstopped : t'.isStopped = t.isStopped := (congrArg Track.isStopped h :)
    unfold OffRests
    rwa [hactive, hoff, hstopped]
  | paused => exact fun _ _ => rfl
  | retired => exact fun _ _ => rfl
  | awaiting => exact fun _ _ => rfl
  | voiceFreed =>
    unfold Track.voiceFreed
    split
    · exact fun _ _ => rfl
    · exact ht
  | withVoice => exact ht

theorem Step.offSounds {t t' : Track} (h : Step t t') (ht : t.OffSounds) : t'.OffSounds := by
  cases h with
  | tuned h =>
    have hactive : t'.isActive = t.isActive := (congrArg Track.isActive h :)
    have hoff : t'.flags.off = t.flags.off := (congrArg (·.flags.off) h :)
    have hhandled : t'.isHandled = t.isHandled := (congrArg Track.isHandled h :)
    have hcount : t'.voicesActive = t.voicesActive := (congrArg Track.voicesActive h :)
    unfold OffSounds
    rwa [hactive, hoff, hhandled, hcount]
  | paused => exact ht
  | retired =>
    intro hactive _ hhandled
    exact absurd (isHandled_of_retired hactive) (Bool.eq_false_iff.mp hhandled)
  | awaiting hvoices => exact fun _ _ _ => Nat.pos_of_ne_zero hvoices
  | voiceFreed =>
    unfold Track.voiceFreed
    split
    · intro hactive _ hhandled
      exact absurd (isHandled_of_retired hactive) (Bool.eq_false_iff.mp hhandled)
    · next hlast =>
      intro _ hoff _
      exact Nat.pos_of_ne_zero fun hzero => hlast ⟨hzero, hoff⟩
  | withVoice => exact fun _ _ _ => Nat.succ_pos _

end Track

namespace Engine

variable {σ : Type}

/-- What holds of an idle track holds of all if it holds of those in the pool. -/
theorem forall_track_iff (e : Engine σ) (good : Track → Prop) (hidle : good {}) :
    (∀ i < e.tracks.size, good (e.track i)) ↔ ∀ i, good (e.track i) := by
  refine ⟨fun h i => ?_, fun h i _ => h i⟩
  by_cases hi : i < e.tracks.size
  · exact h i hi
  · rw [track_of_size_le (Nat.le_of_not_lt hi)]
    exact hidle

/-! ## Operations -/

theorem offRests_startTrack {e : Engine σ} (h : ∀ i, (e.track i).OffRests)
    (slot sequence : Nat) (options : StartOptions) (i position : Nat) :
    ∀ j, ((e.startTrack slot sequence options i position).track j).OffRests := by
  intro j
  obtain ⟨t, -, -, -, hoff, -, -, -, -, htrack⟩ :=
    track_startTrack e slot sequence options i position
  rw [htrack]
  split
  · intro _ hoff'
    rw [hoff] at hoff'
    cases hoff'
  · exact h j

theorem offSounds_startTrack {e : Engine σ} (h : ∀ i, (e.track i).OffSounds)
    (slot sequence : Nat) (options : StartOptions) (i position : Nat) :
    ∀ j, ((e.startTrack slot sequence options i position).track j).OffSounds := by
  intro j
  obtain ⟨t, -, -, -, hoff, -, -, -, -, htrack⟩ :=
    track_startTrack e slot sequence options i position
  rw [htrack]
  split
  · intro _ hoff'
    rw [hoff] at hoff'
    cases hoff'
  · exact h j

theorem offRests_unhandle {e : Engine σ} (h : ∀ i, (e.track i).OffRests) (i : Nat) :
    ∀ j, ((e.modifyTrack i Track.unhandled).track j).OffRests := by
  intro j
  rw [track_unhandle]
  split
  · exact h j
  · exact h j

/-- A track that no handle holds any more is turned off as any other. -/
theorem offSounds_release {e : Engine σ} (h : ∀ i, (e.track i).OffSounds) (i : Nat) :
    ∀ j, (((e.modifyTrack i Track.unhandled).turnOff i).track j).OffSounds := by
  intro j
  by_cases hij : i = j ∧ j < e.tracks.size
  · obtain ⟨rfl, hi⟩ := hij
    have hsize : i < (e.modifyTrack i Track.unhandled).tracks.size := by
      simpa [modifyTrack] using hi
    have hfree : ((e.modifyTrack i Track.unhandled).track i).isHandled = false := by
      rw [track_unhandle, if_pos ⟨rfl, hi⟩]
      rfl
    have hretired : ((e.modifyTrack i Track.unhandled).track i).retired.OffSounds := by
      intro hactive _ _
      exact absurd (Track.isHandled_of_retired hactive) (Bool.eq_false_iff.mp hfree)
    rw [turnOff_eq]
    split
    · rw [track_retireTrack, if_pos ⟨rfl, hsize⟩]
      exact hretired
    · split
      · rw [track_retireTrack, if_pos ⟨rfl, hsize⟩]
        exact hretired
      · next hvoices =>
        rw [track_awaitVoices, track_releaseVoices]
        split
        · exact fun _ _ _ => Nat.pos_of_ne_zero hvoices
        · next hout => exact absurd ⟨rfl, by rwa [tracks_size_releaseVoices]⟩ hout
  · refine ((steps_turnOff _ i) j).keeps (fun _ _ hstep => hstep.offSounds) ?_
    rw [track_unhandle, if_neg hij]
    exact h j

theorem forall_track_resume {good : Track → Prop} (hresumed : ∀ t, good t → good t.resumed)
    {e : Engine σ} (h : ∀ i, good (e.track i)) (i : Nat) :
    ∀ j, good ((e.resumeTrack i).track j) := by
  intro j
  rw [track_resumeTrack]
  split
  · exact hresumed _ (h j)
  · exact h j

end Engine

/-! ## Runs -/

/-- Every track that is turned off, and waits in the pool for its last voices, is
paused and has a voice. -/
def Engine.OffStays {σ : Type} (e : Engine σ) : Prop :=
  ∀ i, (e.track i).isActive = true → (e.track i).flags.off = true →
    (e.track i).isStopped = true ∧ 0 < (e.track i).voicesActive

instance {σ : Type} (e : Engine σ) : Decidable e.OffStays :=
  decidable_of_iff _ (e.forall_track_iff (fun t => t.isActive = true → t.flags.off = true →
    t.isStopped = true ∧ 0 < t.voicesActive) nofun)

/-- Lets tracks go on only while none of them waits, turned off, for its last
voice. -/
def Session.Patient {σ : Type} (s : Session σ) (call : Call σ) : Prop :=
  call.letsGoOn → ∀ i, (s.engine.track i).NotOff

instance {σ : Type} (s : Session σ) (call : Call σ) : Decidable (s.Patient call) :=
  have : Decidable (∀ i, (s.engine.track i).NotOff) :=
    decidable_of_iff _ (s.engine.forall_track_iff Track.NotOff nofun)
  inferInstanceAs (Decidable (_ → _))

section Runs

variable {σ : Type} [SoundChip σ]

open Engine Track

/-- What every step of a track keeps, and a start sets up, lasts through every call
that neither releases a handle nor lets anything go on. -/
theorem forall_track_perform {good : Track → Prop}
    (hstep : ∀ t t', Track.Step t t' → good t → good t')
    (hrelease : ∀ (e : Engine σ) i, (∀ i, good (e.track i)) →
      ∀ j, good (((e.modifyTrack i Track.unhandled).turnOff i).track j))
    (s : Session σ) (call : Call σ)
    (hstart : ∀ sequence options, call = .start sequence options →
      ∀ (e : Engine σ) slot sequence i position, (∀ i, good (e.track i)) →
        ∀ j, good ((e.startTrack slot sequence options i position).track j))
    (hcall : ¬ call.letsGoOn)
    (h : ∀ i, good (s.engine.track i)) : ∀ i, good ((s.perform call).engine.track i) := by
  have hlast := lasting_tracks (σ := σ) hstep
  cases call with
  | tick =>
    rw [Session.engine_tick]
    exact hlast.tick (fun e i key velocity _ _ => (steps_noteOn e i key velocity).keeps hstep) h
  | start sequence options =>
    exact startSequence_keeps (fun _ _ _ h => h) (fun _ _ h => h)
      (fun e slot played i position _ h => hstart sequence options rfl e slot played i position h)
      sequence h
  | releaseHandle slot => exact releaseHandle_keeps (fun _ _ _ h => h) hrelease slot h
  | restart => exact absurd rfl hcall
  | restartAll => exact absurd rfl hcall
  | onChip f => exact hlast.perform (.inr ⟨f, rfl⟩) h
  | _ => exact hlast.perform (.inl trivial) h

/-- What outlasts that a track goes on, and a voice more or less, lasts through every call
that lets tracks go on. -/
theorem forall_track_goOn {good : Track → Prop} (hresumed : ∀ t, good t → good t.resumed)
    (hfreed : ∀ t, good t → good t.voiceFreed) (hvoice : ∀ t, good t → good t.withVoice)
    (s : Session σ) (call : Call σ) (hcall : call.letsGoOn) (h : ∀ i, good (s.engine.track i)) :
    ∀ i, good ((s.perform call).engine.track i) := by
  cases call with
  | restart sequence =>
    exact restart_keeps (fun e : Engine σ => ∀ i, good (e.track i))
      (fun _ _ i _ h => forall_track_resume hresumed h i) sequence h
  | restartAll saved =>
    exact restartAll_keeps (fun e : Engine σ => ∀ i, good (e.track i)) saved
      (fun _ _ _ => True) (fun _ _ _ _ => trivial)
      (fun _ _ i _ h => forall_track_resume hresumed h i) (fun _ _ _ _ _ => trivial)
      (fun _ n _ h i => playNote_keeps hfreed hvoice (h i) n.track _ _ _)
      (fun _ _ _ _ _ _ _ => trivial) h
  | _ => exact absurd hcall Bool.false_ne_true

theorem offRests_make {module : SoundModule} {chip : σ} {e : Engine σ}
    (h : Engine.make module chip = .ok e) (i : Nat) : (e.track i).OffRests := by
  rw [track_make h]
  exact nofun

theorem offSounds_make {module : SoundModule} {chip : σ} {e : Engine σ}
    (h : Engine.make module chip = .ok e) (i : Nat) : (e.track i).OffSounds := by
  rw [track_make h]
  exact nofun

theorem offRests_perform (s : Session σ) (call : Call σ) (hcall : ¬ call.letsGoOn)
    (h : ∀ i, (s.engine.track i).OffRests) : ∀ i, ((s.perform call).engine.track i).OffRests :=
  forall_track_perform (fun _ _ hstep => hstep.offRests)
    (fun _ i h => (steps_turnOff _ i).keeps (fun _ _ hstep => hstep.offRests)
      (offRests_unhandle h i))
    s call
    (fun _ options _ _ slot sequence i position h =>
      offRests_startTrack h slot sequence options i position)
    hcall h

/-- No call takes the voices from a track that waits for them and leaves it in the
pool, unless a handle holds it. -/
theorem offSounds_perform (s : Session σ) (call : Call σ)
    (h : ∀ i, (s.engine.track i).OffSounds) :
    ∀ i, ((s.perform call).engine.track i).OffSounds := by
  by_cases hcall : call.letsGoOn
  · exact forall_track_goOn (fun _ h => h) (fun t h => (Step.voiceFreed t).offSounds h)
      (fun t h => (Step.withVoice t).offSounds h) s call hcall h
  · exact forall_track_perform (fun _ _ hstep => hstep.offSounds)
      (fun _ i h => offSounds_release h i) s call
      (fun _ options _ _ slot sequence i position h =>
        offSounds_startTrack h slot sequence options i position)
      hcall h

/-- A patient call lets no track go on that is turned off. -/
theorem offRests_of_patient (s : Session σ) (call : Call σ) (hpatient : s.Patient call)
    (h : ∀ i, (s.engine.track i).OffRests) :
    ∀ i, ((s.perform call).engine.track i).OffRests := by
  by_cases hcall : call.letsGoOn
  · intro i hactive hoff
    have hnot := forall_track_goOn (fun _ h => h) NotOff.voiceFreed NotOff.withVoice s call hcall
      (hpatient hcall) i hactive
    rw [hnot] at hoff
    cases hoff
  · exact offRests_perform s call hcall h

/-- A run that takes no handles leaves every track without one. -/
theorem unhandled_perform (s : Session σ) (call : Call σ)
    (hstart : call.takesHandle = false)
    (h : ∀ i, (s.engine.track i).isHandled = false) :
    ∀ i, ((s.perform call).engine.track i).isHandled = false := by
  have hstep : ∀ t t', Track.Step t t' → t.isHandled = false → t'.isHandled = false :=
    fun _ _ hstep ht => hstep.isHandled.trans ht
  by_cases hcall : call.letsGoOn
  · exact forall_track_goOn (fun _ h => h) (fun t h => hstep _ _ (.voiceFreed t) h)
      (fun t h => hstep _ _ (.withVoice t) h) s call hcall h
  · refine forall_track_perform hstep (fun e i h => ?_) s call
      (fun played options hcall e slot sequence i position h j => ?_) hcall h
    · refine (steps_turnOff _ i).keeps hstep fun j => ?_
      rw [track_unhandle]
      split
      · rfl
      · exact h j
    · obtain ⟨t, -, -, hhandled, -, -, -, -, -, htrack⟩ :=
        track_startTrack e slot sequence options i position
      rw [htrack]
      split
      · subst hcall
        exact hhandled.trans hstart
      · exact h j

omit [SoundChip σ] in
theorem Engine.offStays_iff (e : Engine σ) :
    e.OffStays ↔ ((∀ i, (e.track i).OffRests) ∧ ∀ i, (e.track i).OffSounds) ∧
      ∀ i, (e.track i).isActive = true → (e.track i).flags.off = true →
        (e.track i).isHandled = true → 0 < (e.track i).voicesActive := by
  constructor
  · intro h
    refine ⟨⟨fun i hactive hoff => ?_, fun i hactive hoff _ => ?_⟩, fun i hactive hoff _ => ?_⟩
    · exact (h i hactive hoff).1
    · exact (h i hactive hoff).2
    · exact (h i hactive hoff).2
  · rintro ⟨⟨hrests, hsounds⟩, hhandled⟩ i hactive hoff
    refine ⟨hrests i hactive hoff, ?_⟩
    cases hheld : (e.track i).isHandled with
    | false => exact hsounds i hactive hoff hheld
    | true => exact hhandled i hactive hoff hheld

/-- In exactly those runs does every track that is turned off stay paused, with a
voice to wait for, in which no call lets such a track go on and none that a handle
holds has lost its last voice. It does so in every run that is patient and takes no
handles. -/
theorem offStays_throughout_iff {module : SoundModule} {chip : σ} {e : Engine σ}
    (hmake : Engine.make module chip = .ok e) (calls : List (Call σ)) :
    (Session.Throughout (fun s => s.engine.OffStays) { engine := e } calls ↔
      Session.Allows (fun s call => call.letsGoOn →
          ∀ i, ((s.perform call).engine.track i).OffRests) { engine := e } calls ∧
        Session.Throughout (fun s => ∀ i, (s.engine.track i).isActive = true →
          (s.engine.track i).flags.off = true → (s.engine.track i).isHandled = true →
          0 < (s.engine.track i).voicesActive) { engine := e } calls) ∧
    (Session.Allows (fun s call => s.Patient call ∧
        call.takesHandle = false) { engine := e } calls →
      Session.Throughout (fun s => s.engine.OffStays) { engine := e } calls) := by
  have hfresh : (∀ i, (e.track i).OffRests) ∧ ∀ i, (e.track i).OffSounds :=
    ⟨offRests_make hmake, offSounds_make hmake⟩
  refine ⟨?_, fun hfit => ?_⟩
  · simp only [Engine.offStays_iff, Session.throughout_and]
    rw [← Session.throughout_and, Session.throughout_iff_allows (fun s call h => ?_) calls _ hfresh]
    constructor
    · exact fun hafter hcall => hafter.1
    · intro hcall
      refine ⟨?_, offSounds_perform s call h.2⟩
      by_cases hgoes : call.letsGoOn
      · exact hcall hgoes
      · exact offRests_perform s call hgoes h.1
  · have hkept := hfit.throughout
      (fun s => ((∀ i, (s.engine.track i).OffRests) ∧
        ∀ i, (s.engine.track i).OffSounds) ∧ ∀ i, (s.engine.track i).isHandled = false)
      (fun s call h hcall => ⟨⟨offRests_of_patient s call hcall.1 h.1.1,
        offSounds_perform s call h.1.2⟩, unhandled_perform s call hcall.2 h.2⟩)
      ⟨hfresh, fun i => by rw [track_make hmake]; rfl⟩
    refine hkept.imp fun s h => (Engine.offStays_iff _).mpr ⟨h.1, fun i _ _ hheld => ?_⟩
    rw [h.2 i] at hheld
    cases hheld

end Runs

/-- A track that is paused and goes on, and is then stopped, stays off. -/
theorem offStays_throughout_stop : ∃ e,
    Engine.make (solo [(0, .noteOn 60 100), (1000, .trackEnd)])
        ({ instantRelease := false } : RecorderChip) = .ok e ∧
      Session.Throughout (fun s => s.engine.OffStays) { engine := e }
        [.start 0 {}, .tick, .pause 0 false, .restart 0, .stop 0, .tick] := by
  obtain ⟨e, hmake, hfit⟩ : ∃ e,
      Engine.make (solo [(0, .noteOn 60 100), (1000, .trackEnd)])
          ({ instantRelease := false } : RecorderChip) = .ok e ∧
        Session.Allows (fun s call => s.Patient call ∧ call.takesHandle = false) { engine := e }
          [.start 0 {}, .tick, .pause 0 false, .restart 0, .stop 0, .tick] :=
    Engine.exists_make (by decide +kernel)
  exact ⟨e, hmake, (offStays_throughout_iff hmake _).2 hfit⟩

/-- A track that is stopped and let go on, while its note fades, is turned off and not
paused. -/
theorem not_offStays_restart : ∃ e,
    Engine.make (solo [(0, .noteOn 60 100), (1000, .trackEnd)])
        ({ instantRelease := false } : RecorderChip) = .ok e ∧
      ¬ Session.Throughout (fun s => s.engine.OffStays) { engine := e }
        [.start 0 {}, .tick, .stop 0, .restart 0] := by
  obtain ⟨e, hmake, hruns⟩ : ∃ e,
      Engine.make (solo [(0, .noteOn 60 100), (1000, .trackEnd)])
          ({ instantRelease := false } : RecorderChip) = .ok e ∧
        ¬ (Session.run { engine := e } [.start 0 {}, .tick, .stop 0, .restart 0]).engine.OffStays :=
    Engine.exists_make (by decide +kernel)
  exact ⟨e, hmake, fun hthroughout => hruns hthroughout.last⟩

end SoundSequencer
